import ResourcePki.Proofs.Uri

/-!
Schemes of URIs, and what all URIs have in common.

The checks that URIs of all kinds pass can be said without saying how they are made: a URI is short
enough, consists of printable octets, begins with its scheme in any case and has no dot behind a
slash. All of its octets are ASCII, so it comes back from its text.
-/

namespace ResourcePki

namespace Scheme

/-- The scheme in lower case. -/
def text : Scheme → String
  | .rsync => "rsync://"
  | .https => "https://"

theorem length_octets (s : Scheme) : s.octets.length = 8 := by
  cases s <;> rfl

theorem toText_octets (s : Scheme) : Octets.toText s.octets = s.text := by
  cases s <;> decide

theorem map_lowered_octets (s : Scheme) : s.octets.map Uri.lowered = s.octets := by
  cases s <;> decide

end Scheme

namespace Uri

/-- Octets that are short enough for a URI and can stand in one, with a scheme in front and no dot
    behind a slash. -/
structure IsCommon (s : Scheme) (bs : Octets) : Prop where
  length_le : bs.length ≤ 2048
  graphic : ∀ b ∈ bs, 0x21 ≤ b ∧ b ≤ 0x7e
  scheme : (Octets.toText (bs.take 8)).toLower = s.text
  noDot : ¬[slash, dot] <:+: bs

theorem hasDotSegment_iff : ∀ {bs : Octets}, hasDotSegment bs = true ↔ [slash, dot] <:+: bs
  | [] => by simp [hasDotSegment]
  | [a] => by
    have hshort : ¬[slash, dot] <:+: [a] := fun h => absurd h.length_le (by simp)
    simp [hasDotSegment, hshort]
  | a :: b :: rest => by
    have hprefix : [slash, dot] <+: a :: b :: rest ↔ a = slash ∧ b = dot := by
      simp [List.cons_prefix_cons, eq_comm]
    rw [hasDotSegment, Bool.or_eq_true, hasDotSegment_iff, List.infix_cons_iff (a := a), hprefix,
      Bool.and_eq_true, beq_iff_eq, beq_iff_eq]

theorem toLower_toText (bs : Octets) :
    (Octets.toText bs).toLower = Octets.toText (bs.map lowered) := by
  have hchar : ∀ n : Fin 256, (Char.ofNat (UInt8.ofFin n).toNat).toLower =
      Char.ofNat (lowered (UInt8.ofFin n)).toNat := by
    decide +kernel
  have hlower : (Octets.toText bs).toLower.toList = (Octets.toText bs).toList.map Char.toLower :=
    String.toList_map
  rw [← String.toList_inj, hlower, Octets.toList_toText, Octets.toList_toText, List.map_map,
    List.map_map]
  exact List.map_congr_left fun b _ => hchar b.toFin

theorem eqIgnoringCase_octets_iff {s : Scheme} {bs : Octets} :
    eqIgnoringCase bs s.octets = true ↔ (Octets.toText bs).toLower = s.text := by
  rw [eqIgnoringCase, beq_iff_eq, s.map_lowered_octets, toLower_toText, ← s.toText_octets,
    Octets.toText_injective.eq_iff]

/-- Octets pass the checks for all URIs iff they are as all URIs are and more follows the scheme. -/
theorem remainder_eq_ok {s : Scheme} {bs rest : Octets} :
    s.remainder bs = .ok rest ↔ IsCommon s bs ∧ 8 < bs.length ∧ bs.drop 8 = rest := by
  have hascii : isUriAscii bs = true ↔ ∀ b ∈ bs, 0x21 ≤ b ∧ b ≤ 0x7e := by
    simp [isUriAscii, isGraphic]
  have hstarts : s.starts bs = true ↔
      8 < bs.length ∧ (Octets.toText (bs.take 8)).toLower = s.text := by
    rw [Scheme.starts, Bool.and_eq_true, eqIgnoringCase_octets_iff, decide_eq_true_eq,
      s.length_octets]
  rw [Scheme.remainder]
  simp only [ite_error_eq_ok, Bool.not_eq_true', Bool.not_eq_false, hascii, hstarts,
    hasDotSegment_iff, Except.ok.injEq, s.length_octets, gt_iff_lt, Nat.not_lt, maxLength]
  constructor
  · rintro ⟨hlength, hgraphic, ⟨hmore, hscheme⟩, hdot, hrest⟩
    exact ⟨⟨hlength, hgraphic, hscheme, hdot⟩, hmore, hrest⟩
  · rintro ⟨⟨hlength, hgraphic, hscheme, hdot⟩, hmore, hrest⟩
    exact ⟨hlength, hgraphic, ⟨hmore, hscheme⟩, hdot, hrest⟩

theorem IsCommon.toNat_lt {s : Scheme} {bs : Octets} (h : IsCommon s bs) :
    ∀ b ∈ bs, b.toNat < 128 := by
  intro b hb
  have hle : b.toNat ≤ 0x7e := (h.graphic b hb).2
  omega

end Uri

/-! ### Texts -/

theorem RsyncUri.ofText_text (u : RsyncUri) : ofText u.text = .ok u := by
  obtain ⟨rest, hrest, -⟩ := bind_eq_ok.mp u.check_eq
  have hcommon := (Uri.remainder_eq_ok.mp hrest).1
  rw [ofText, text, Octets.ofText_toText hcommon.toNat_lt, u.ofOctets_octets]

theorem HttpsUri.ofText_text (u : HttpsUri) : ofText u.text = .ok u := by
  obtain ⟨rest, hrest, -⟩ := bind_eq_ok.mp u.check_eq
  have hcommon := (Uri.remainder_eq_ok.mp hrest).1
  rw [ofText, text, Octets.ofText_toText hcommon.toNat_lt, u.ofOctets_octets]

end ResourcePki
