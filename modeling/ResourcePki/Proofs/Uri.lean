import Mathlib.Data.List.Basic
import ResourcePki.Proofs.Reading
import ResourcePki.Uri.Https
import ResourcePki.Uri.Rsync

/-!
URIs and the octets they are made of.

A URI is nothing but its octets together with the fact that they pass the check of its kind. So the
octets of a URI are accepted again and give the same URI, and there is no URI without octets. ASCII
octets are the bytes of the text that they make.
-/

namespace ResourcePki

theorem RsyncUri.octets_of_ofOctets {bs : Octets} {u : RsyncUri} (h : ofOctets bs = .ok u) :
    u.octets = bs := by
  unfold ofOctets at h
  split at h
  · exact Except.ok.inj h ▸ rfl
  · simp at h

theorem HttpsUri.octets_of_ofOctets {bs : Octets} {u : HttpsUri} (h : ofOctets bs = .ok u) :
    u.octets = bs := by
  unfold ofOctets at h
  split at h
  · exact Except.ok.inj h ▸ rfl
  · simp at h

theorem RsyncUri.ofOctets_octets (u : RsyncUri) : ofOctets u.octets = .ok u := by
  unfold ofOctets
  split
  · rfl
  · rename_i e he
    rw [u.check_eq] at he
    simp at he

theorem RsyncUri.octets_ne_nil (u : RsyncUri) : u.octets ≠ [] := by
  intro h
  have hempty : check [] = .error .badScheme := rfl
  rw [← h, u.check_eq] at hempty
  simp at hempty

theorem HttpsUri.octets_ne_nil (u : HttpsUri) : u.octets ≠ [] := by
  intro h
  have hempty : check [] = .error .badScheme := rfl
  rw [← h, u.check_eq] at hempty
  simp at hempty

theorem HttpsUri.ofOctets_octets (u : HttpsUri) : ofOctets u.octets = .ok u := by
  unfold ofOctets
  split
  · rfl
  · rename_i e he
    rw [u.check_eq] at he
    simp at he

/-! ### Texts -/

theorem Octets.toList_toText (bs : Octets) :
    (toText bs).toList = bs.map fun b => Char.ofNat b.toNat :=
  String.toList_ofList

theorem Octets.toText_append (a b : Octets) : toText (a ++ b) = toText a ++ toText b := by
  rw [toText, List.map_append, String.ofList_append]
  rfl

theorem Octets.toNat_ofNat_toNat (b : UInt8) : (Char.ofNat b.toNat).val.toNat = b.toNat := by
  have hlt := b.toNat_lt
  have hvalid : b.toNat.isValidChar := Or.inl (by omega)
  rw [Char.ofNat, dif_pos hvalid]
  rfl

/-- Every octet is a code point, so different octets make different texts. -/
theorem Octets.toText_injective : Function.Injective toText := by
  intro a b h
  have hlist := congrArg String.toList h
  rw [toList_toText, toList_toText] at hlist
  refine List.map_injective_iff.mpr (fun x y hxy => ?_) hlist
  rw [← UInt8.toNat_inj, ← toNat_ofNat_toNat x, ← toNat_ofNat_toNat y, hxy]

/-- Octets below 128 come back from the text that they make. -/
theorem Octets.ofText_toText {bs : Octets} (h : ∀ b ∈ bs, b.toNat < 128) :
    ofText (toText bs) = bs := by
  rw [ofText, toText, String.toList_ofList]
  induction bs with
  | nil => rfl
  | cons b bs ih =>
    have hb := h b List.mem_cons_self
    rw [List.map_cons, List.flatMap_cons, ih fun c hc => h c (List.mem_cons_of_mem b hc),
      String.utf8EncodeChar, Octets.toNat_ofNat_toNat, if_pos (by omega), UInt8.ofNat_toNat,
      List.singleton_append]

theorem Octets.toByteArray_toText {bs : Octets} (h : ∀ b ∈ bs, b.toNat < 128) :
    (toText bs).toByteArray = bs.toByteArray := by
  rw [← String.ofList_toList (s := toText bs), String.toByteArray_ofList]
  exact congrArg List.toByteArray (ofText_toText h)

/-- Octets below 128 are a text in UTF-8. -/
theorem Octets.fromUTF8?_toByteArray {bs : Octets} (h : ∀ b ∈ bs, b.toNat < 128) :
    String.fromUTF8? bs.toByteArray = some (toText bs) := by
  rw [← toByteArray_toText h, String.fromUTF8?, dif_pos (toText bs).isValidUTF8]
  rfl

end ResourcePki
