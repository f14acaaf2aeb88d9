import ResourcePki.Proofs.Uri.Parts
import ResourcePki.Uri.Https

/-!
The grammar of URIs.

Which octets are a URI can be said without the cuts that find it out: behind what all URIs have in
common they go on with parts that slashes separate. An accepted URI is a text that can be cut behind
its scheme. Each of its parts is cut from that text on its own, and together they make it up again.
-/

namespace ResourcePki

namespace Uri

/-! ### Cutting at slashes -/

/-- Octets cut at their first slashes into at most so many pieces; slashes that are left stay in the
    last one. -/
def pieces : Nat → Octets → List Octets
  | 0, _ => []
  | 1, bs => [bs]
  | n + 2, bs => if slash ∈ bs then segment bs :: pieces (n + 1) (afterSlash bs) else [bs]

theorem pieces_append_slash {n : Nat} {a b : Octets} (h : slash ∉ a) :
    pieces (n + 2) (a ++ slash :: b) = a :: pieces (n + 1) b := by
  rw [pieces, if_pos (by simp), segment_append_slash h, afterSlash_append_slash h]

theorem pieces_of_notMem {n : Nat} {a : Octets} (h : slash ∉ a) : pieces (n + 2) a = [a] := by
  rw [pieces, if_neg h]

theorem lt_length_of_drop {bs a b : Octets} (h : bs.drop 8 = a ++ slash :: b) : 8 < bs.length := by
  have hlength := congrArg List.length h
  simp only [List.length_drop, List.length_append, List.length_cons] at hlength
  omega

/-- Where no dot is behind a slash, none of the parts between slashes begins with a dot. -/
theorem head?_ne_dot {bs : Octets} (h : ¬[slash, dot] <:+: slash :: bs) :
    ∀ part ∈ bs.splitOn slash, part.head? ≠ some dot := by
  have hhead : ∀ {a b : Octets}, ¬[slash, dot] <:+: slash :: (a ++ b) → a.head? ≠ some dot := by
    intro a b hnot hdot
    obtain ⟨a', rfl⟩ := List.head?_eq_some_iff.mp hdot
    exact hnot ⟨[], a' ++ b, by simp⟩
  -- what is behind the first slash is shorter, and a slash is in front of it as well
  induction hn : bs.length using Nat.strong_induction_on generalizing bs with
  | _ n ih =>
    intro part hpart
    by_cases hslash : slash ∈ bs
    · obtain ⟨a, b, rfl, ha⟩ := List.eq_append_cons_of_mem hslash
      rw [List.splitOn_append_cons_self_of_not_mem ha, List.mem_cons] at hpart
      rcases hpart with rfl | hpart
      · exact hhead h
      · have hsuffix : slash :: b <:+ slash :: (a ++ slash :: b) :=
          (List.suffix_append a _).trans (List.suffix_cons _ _)
        have hrest : ¬[slash, dot] <:+: slash :: b := fun hin => h (hin.trans hsuffix.isInfix)
        exact ih b.length (by simp at hn; omega) hrest rfl part hpart
    · rw [List.splitOn_eq_singleton hslash, List.mem_singleton] at hpart
      subst hpart
      exact hhead (b := []) (by rwa [List.append_nil])

/-- Octets are shown as the text they are in UTF-8, which can be cut behind the eight bytes of the
    scheme. -/
structure ShownAs (bs : Octets) (text : String) : Prop where
  text_eq : String.fromUTF8? bs.toByteArray = some text
  exists_front : ∃ front : String,
    text = front ++ Octets.toText (bs.drop 8) ∧ front.utf8ByteSize = 8

theorem IsCommon.shownAs {s : Scheme} {bs : Octets} (h : IsCommon s bs) (hlength : 8 < bs.length) :
    ShownAs bs (Octets.toText bs) := by
  refine ⟨Octets.fromUTF8?_toByteArray h.toNat_lt, Octets.toText (bs.take 8), ?_, ?_⟩
  · rw [← Octets.toText_append, List.take_append_drop]
  · have hbytes : (Octets.toText (bs.take 8)).toByteArray = (bs.take 8).toByteArray :=
      Octets.toByteArray_toText fun b hb => h.toNat_lt b (List.mem_of_mem_take hb)
    rw [String.utf8ByteSize, hbytes, List.size_toByteArray, List.length_take]
    omega

end Uri

namespace RsyncUri

open Uri

variable {u : RsyncUri} {rest a m : Octets} {p : Option Octets}

namespace Splits

variable (h : Splits rest a m p)
include h

theorem authorityOf_eq : authorityOf rest = a := by
  rw [authorityOf, h.eq_append, segment_append_slash h.slash_notMem_authority]

theorem moduleOf_eq : moduleOf rest = m := by
  rw [moduleOf, h.eq_append, afterSlash_append_slash h.slash_notMem_authority]
  cases p with
  | none => simpa using segment_eq_self h.slash_notMem_module
  | some p => exact segment_append_slash h.slash_notMem_module

theorem pathOf_eq : pathOf rest = p.getD [] := by
  rw [pathOf, h.eq_append, afterSlash_append_slash h.slash_notMem_authority]
  cases p with
  | none => simpa using afterSlash_eq_nil h.slash_notMem_module
  | some p => exact afterSlash_append_slash h.slash_notMem_module

theorem pieces_eq : pieces 3 rest = a :: m :: p.toList := by
  rw [h.eq_append, pieces_append_slash h.slash_notMem_authority]
  cases p with
  | none => simpa using pieces_of_notMem h.slash_notMem_module
  | some p => exact congrArg (a :: ·) (pieces_append_slash h.slash_notMem_module)

theorem splitOn_eq : rest.splitOn slash = a :: m :: p.elim [] (List.splitOn slash) := by
  rw [h.eq_append, List.splitOn_append_cons_self_of_not_mem h.slash_notMem_authority]
  cases p with
  | none => simpa using List.splitOn_eq_singleton h.slash_notMem_module
  | some p =>
    exact congrArg (a :: ·) (List.splitOn_append_cons_self_of_not_mem h.slash_notMem_module p)

theorem head?_ne_dot (hdot : ¬[slash, dot] <:+: rest) :
    ∀ part ∈ m :: (p.getD []).splitOn slash, part.head? ≠ some dot := by
  rw [h.eq_append] at hdot
  have hbehind : ∀ part ∈ (m ++ p.elim [] (slash :: ·)).splitOn slash, part.head? ≠ some dot :=
    Uri.head?_ne_dot fun hin => hdot (hin.trans (List.suffix_append a _).isInfix)
  cases p with
  | none =>
    rw [Option.elim_none, List.append_nil,
      List.splitOn_eq_singleton h.slash_notMem_module] at hbehind
    simpa using hbehind
  | some p =>
    rwa [Option.elim_some,
      List.splitOn_append_cons_self_of_not_mem h.slash_notMem_module] at hbehind

end Splits

theorem exists_ofOctets_iff {bs : Octets} :
    (∃ u, ofOctets bs = .ok u) ↔ IsCommon .rsync bs ∧ ∃ a m p, Splits (bs.drop 8) a m p := by
  constructor
  · rintro ⟨u, hu⟩
    obtain rfl := octets_of_ofOctets hu
    obtain ⟨hcommon, -, hauthority, hmodule⟩ := check_eq_ok.mp u.check_eq
    exact ⟨hcommon, exists_splits hauthority hmodule⟩
  · rintro ⟨hcommon, a, m, p, h⟩
    have hcheck : check bs = .ok () := check_eq_ok.mpr ⟨hcommon, lt_length_of_drop h.eq_append,
      h.authorityOf_eq ▸ h.authority_ne_nil, h.moduleOf_eq ▸ h.module_ne_nil⟩
    exact ⟨⟨bs, hcheck⟩, ofOctets_octets ⟨bs, hcheck⟩⟩

/-- What is seen of a URI that octets have been accepted as. -/
structure Presents (u : RsyncUri) (bs : Octets) : Prop where
  octets_eq : u.octets = bs
  shownAs : ShownAs bs u.text
  authority_eq : (u.remainder.splitOn slash)[0]? = some u.authority
  moduleName_eq : (u.remainder.splitOn slash)[1]? = some u.moduleName
  path_eq : ((pieces 3 u.remainder)[2]?).getD [] = u.path
  /-- The parts are the only ones that the octets can be made of. -/
  unique : ∀ a m p, Splits (bs.drop 8) a m p →
    u.authority = a ∧ u.moduleName = m ∧ u.path = p.getD []
  /-- The parts are the pieces that the rest falls into, and make up the octets again. -/
  whole : ∃ p : Option Octets, u.path = p.getD [] ∧
    pieces 3 u.remainder = u.authority :: u.moduleName :: p.toList ∧
    bs = bs.take 8 ++ u.authority ++ slash :: u.moduleName ++ p.elim [] (slash :: ·)
  head?_ne_dot : ∀ part ∈ u.moduleName :: u.path.splitOn slash, part.head? ≠ some dot

theorem presents (u : RsyncUri) : u.Presents u.octets := by
  obtain ⟨hcommon, hlength, hauthority, hmodule⟩ := check_eq_ok.mp u.check_eq
  obtain ⟨a, m, p, h⟩ : ∃ a m p, Splits u.remainder a m p := exists_splits hauthority hmodule
  have hparts : ∀ {a m p}, Splits u.remainder a m p →
      u.authority = a ∧ u.moduleName = m ∧ u.path = p.getD [] :=
    fun h => ⟨h.authorityOf_eq, h.moduleOf_eq, h.pathOf_eq⟩
  obtain ⟨ha, hm, hp⟩ := hparts h
  have hoctets : u.octets = u.octets.take 8 ++ u.remainder := (List.take_append_drop 8 _).symm
  have hdot : ¬[slash, dot] <:+: u.remainder :=
    fun hin => hcommon.noDot (hin.trans (List.drop_suffix 8 _).isInfix)
  exact {
    octets_eq := rfl
    shownAs := hcommon.shownAs hlength
    authority_eq := by rw [h.splitOn_eq, ha]; rfl
    moduleName_eq := by rw [h.splitOn_eq, hm]; rfl
    path_eq := by rw [h.pieces_eq, hp]; cases p <;> rfl
    unique := fun a m p => hparts
    whole := ⟨p, hp, ha ▸ hm ▸ h.pieces_eq, by rw [ha, hm]; simpa [h.eq_append] using hoctets⟩
    head?_ne_dot := by rw [hm, hp]; exact h.head?_ne_dot hdot }

end RsyncUri

namespace HttpsUri

open Uri

/-- Octets that are made of a host, a slash and anything behind it. -/
structure Splits (rest host behind : Octets) : Prop where
  host_ne_nil : host ≠ []
  slash_notMem_host : slash ∉ host
  eq_append : rest = host ++ slash :: behind

theorem exists_splits_iff {rest : Octets} : (∃ host behind, Splits rest host behind) ↔
    segment rest ≠ [] ∧ (segment rest).length ≠ rest.length := by
  constructor
  · rintro ⟨host, behind, h⟩
    rw [h.eq_append, segment_append_slash h.slash_notMem_host]
    exact ⟨h.host_ne_nil, by simp⟩
  · rintro ⟨hne, hlength⟩
    have hslash : slash ∈ rest := by
      by_contra hnot
      exact hlength (congrArg List.length (segment_eq_self hnot))
    obtain ⟨host, behind, rfl, hhost⟩ := List.eq_append_cons_of_mem hslash
    rw [segment_append_slash hhost] at hne
    exact ⟨host, behind, hne, hhost, rfl⟩

theorem check_eq_ok {bs : Octets} : check bs = .ok () ↔
    IsCommon .https bs ∧ 8 < bs.length ∧ ∃ host behind, Splits (bs.drop 8) host behind := by
  rw [check, bind_eq_ok, exists_splits_iff]
  simp only [remainder_eq_ok, ite_error_eq_ok, not_or]
  constructor
  · rintro ⟨rest, ⟨hcommon, hlength, rfl⟩, hhost, -⟩
    exact ⟨hcommon, hlength, hhost⟩
  · rintro ⟨hcommon, hlength, hhost⟩
    exact ⟨bs.drop 8, ⟨hcommon, hlength, rfl⟩, hhost, trivial⟩

theorem exists_ofOctets_iff {bs : Octets} : (∃ u, ofOctets bs = .ok u) ↔
    IsCommon .https bs ∧ ∃ host behind, Splits (bs.drop 8) host behind := by
  constructor
  · rintro ⟨u, hu⟩
    obtain rfl := octets_of_ofOctets hu
    obtain ⟨hcommon, -, hhost⟩ := check_eq_ok.mp u.check_eq
    exact ⟨hcommon, hhost⟩
  · rintro ⟨hcommon, host, behind, h⟩
    have hcheck : check bs = .ok () :=
      check_eq_ok.mpr ⟨hcommon, lt_length_of_drop h.eq_append, host, behind, h⟩
    exact ⟨⟨bs, hcheck⟩, ofOctets_octets ⟨bs, hcheck⟩⟩

/-- What is seen of a URI that octets have been accepted as. -/
structure Presents (u : HttpsUri) (bs : Octets) : Prop where
  octets_eq : u.octets = bs
  shownAs : ShownAs bs u.text
  host_eq : ((bs.drop 8).splitOn slash)[0]? = some u.host
  unique : ∀ host behind, Splits (bs.drop 8) host behind → u.host = host

theorem presents (u : HttpsUri) : u.Presents u.octets := by
  obtain ⟨hcommon, hlength, host, behind, h⟩ := check_eq_ok.mp u.check_eq
  have hhost : ∀ {host behind}, Splits (u.octets.drop 8) host behind → u.host = host := by
    intro host behind h
    show segment (u.octets.drop 8) = host
    rw [h.eq_append, segment_append_slash h.slash_notMem_host]
  exact {
    octets_eq := rfl
    shownAs := hcommon.shownAs hlength
    host_eq := by
      rw [hhost h, h.eq_append, List.splitOn_append_cons_self_of_not_mem h.slash_notMem_host]
      rfl
    unique := fun _ _ => hhost }

end HttpsUri

namespace Uri

/-- The URIs that octets are accepted as, and what is seen of them, are as the grammar says. -/
theorem ofOctets_exact (bs : Octets) :
    ((∃ u, RsyncUri.ofOctets bs = .ok u) ↔
      IsCommon .rsync bs ∧ ∃ a m p, RsyncUri.Splits (bs.drop 8) a m p) ∧
    (∀ u, RsyncUri.ofOctets bs = .ok u → u.Presents bs) ∧
    ((∃ u, HttpsUri.ofOctets bs = .ok u) ↔
      IsCommon .https bs ∧ ∃ host behind, HttpsUri.Splits (bs.drop 8) host behind) ∧
    ∀ u, HttpsUri.ofOctets bs = .ok u → u.Presents bs :=
  ⟨RsyncUri.exists_ofOctets_iff, fun u h => RsyncUri.octets_of_ofOctets h ▸ u.presents,
    HttpsUri.exists_ofOctets_iff, fun u h => HttpsUri.octets_of_ofOctets h ▸ u.presents⟩

/-- The scheme of a URI may be in any case. The path of an rsync URI may begin and end with slashes,
    and what follows the host of an https URI may be anything without a segment that begins with a
    dot. -/
theorem ofOctets_exact_sample :
    let bs := Octets.ofAscii "rSYNC://host/module//ca/"
    let bs' := Octets.ofAscii "HTTPS://host:8080/a//b."
    (∃ u, RsyncUri.ofOctets bs = .ok u ∧ u.Presents bs ∧ u.authority = Octets.ofAscii "host" ∧
      u.moduleName = Octets.ofAscii "module" ∧ u.path = Octets.ofAscii "/ca/") ∧
    ∃ u, HttpsUri.ofOctets bs' = .ok u ∧ u.Presents bs' ∧ u.host = Octets.ofAscii "host:8080" := by
  intro bs bs'
  constructor
  · have hremainder : Scheme.rsync.remainder bs = .ok (bs.drop 8) := by decide +kernel
    have hsplits : RsyncUri.Splits (bs.drop 8) (Octets.ofAscii "host") (Octets.ofAscii "module")
        (some (Octets.ofAscii "/ca/")) :=
      ⟨by decide, by decide, by decide, by decide, by decide +kernel⟩
    obtain ⟨hrsync, hpresents, -⟩ := ofOctets_exact bs
    obtain ⟨u, hu⟩ := hrsync.mpr ⟨(remainder_eq_ok.mp hremainder).1, _, _, _, hsplits⟩
    exact ⟨u, hu, hpresents u hu, (hpresents u hu).unique _ _ _ hsplits⟩
  · have hremainder : Scheme.https.remainder bs' = .ok (bs'.drop 8) := by decide +kernel
    have hsplits : HttpsUri.Splits (bs'.drop 8) (Octets.ofAscii "host:8080")
        (Octets.ofAscii "a//b.") :=
      ⟨by decide, by decide, by decide +kernel⟩
    obtain ⟨-, -, hhttps, hpresents⟩ := ofOctets_exact bs'
    obtain ⟨u, hu⟩ := hhttps.mpr ⟨(remainder_eq_ok.mp hremainder).1, _, _, hsplits⟩
    exact ⟨u, hu, hpresents u hu, (hpresents u hu).unique _ _ hsplits⟩

end Uri

end ResourcePki
