import ResourcePki.Certificate
import ResourcePki.Proofs.Der.Reads
import ResourcePki.Proofs.Der.Skip
import ResourcePki.Proofs.Time

/-!
What holds of every decoded certificate.

No two of its extensions are of one kind, so an extension is found by its identifier wherever it
stands. Its key is kept in an encoding that is one value and nothing else, which is why the key can
be read again from what was kept. It ends at a whole second of a year with four digits.
-/

namespace ResourcePki

open Der

/-! ### Keys -/

/-- The encoding that is kept of a key is one value. -/
def PublicKey.IsWhole (k : PublicKey) : Prop :=
  firstValue? k.encoding = some (k.encoding, [])

theorem Der.ensures_captureOne : Ensures captureOne fun v => firstValue? v = some (v, []) := by
  intro s v t h
  unfold captureOne at h
  split at h
  · simp at h
  · rename_i v' rest hfirst
    simp only [Except.ok.injEq, Prod.mk.injEq] at h
    exact h.1 ▸ firstValue?_self hfirst

namespace PublicKey

theorem encoding_of_ofEncoding {bs : Octets} {k : PublicKey} (h : ofEncoding bs = .ok k) :
    k.encoding = bs := by
  unfold ofEncoding at h
  split at h
  · exact Except.ok.inj h ▸ rfl
  · simp at h

theorem ensures_read : Ensures read IsWhole := by
  refine ensures_captureOne.bind fun v hv => Ensures.lift fun k hk => ?_
  rw [IsWhole, encoding_of_ofEncoding hk]
  exact hv

theorem isWhole_of_ofDer {bs : Octets} {k : PublicKey} (h : ofDer bs = .ok k) : k.IsWhole :=
  property_of_decode ensures_read h

theorem ofEncoding_encoding (k : PublicKey) : ofEncoding k.encoding = .ok k := by
  unfold ofEncoding
  split
  · exact congrArg Except.ok (ext_encoding rfl)
  · rename_i err h
    rw [k.decode_eq] at h
    simp at h

/-- A key is read again from the encoding that was kept of it. -/
theorem IsWhole.ofDer_encoding {k : PublicKey} (h : k.IsWhole) : ofDer k.encoding = .ok k := by
  have hcapture : captureOne (Input.whole k.encoding) = .ok (k.encoding, Input.whole []) := by
    rw [captureOne, Input.whole, h]
    rfl
  have hread : read (Input.whole k.encoding) = .ok (k, Input.whole []) :=
    run_bind_eq_ok.mpr ⟨_, _, hcapture, run_lift_eq_ok.mpr ⟨k, k.ofEncoding_encoding, rfl⟩⟩
  rw [ofDer, decode, hread]

end PublicKey

/-! ### Moments -/

/-- A number of some digits behind what has been read of it. -/
theorem Time.ensures_number : ∀ count start,
    Ensures (number count start) fun n => n < (start + 1) * 10 ^ count
  | 0, start => Ensures.pure (by omega)
  | count + 1, start => by
    refine Ensures.bind_any fun b => Ensures.ite (fun hdigit => ?_) fun _ => Ensures.throw
    intro s n t h
    have hlt := ensures_number count _ s n t h
    have hb : b.toNat ≤ 0x39 := UInt8.le_iff_toNat_le.mp hdigit.2
    calc n < (start * 10 + (b.toNat - 0x30) + 1) * 10 ^ count := hlt
      _ ≤ ((start + 1) * 10) * 10 ^ count := Nat.mul_le_mul_right _ (by omega)
      _ = (start + 1) * 10 ^ (count + 1) := by rw [Nat.pow_succ', Nat.mul_assoc]

theorem Time.ensures_readYear (tag : Tag) : Ensures (readYear tag) fun n => n ≤ 9999 := by
  refine Ensures.ite (fun _ => ?_) fun _ => Ensures.ite (fun _ => ?_) fun _ => Ensures.throw
  · refine (ensures_number 2 0).bind fun year hyear => Ensures.pure ?_
    split <;> omega
  · intro s n t h
    have hlt := ensures_number 4 0 s n t h
    omega

theorem Time.ensures_readContent (tag : Tag) : Ensures (readContent tag) IsPlain := by
  refine (ensures_readYear tag).bind fun year hyear => ?_
  -- the five numbers behind the year and the last octet
  iterate 6 refine Ensures.bind_any fun _ => ?_
  refine Ensures.ite (fun _ => Ensures.throw_bind) fun _ => ?_
  dsimp only
  split
  · rename_i t ht
    exact Ensures.pure (isPlain_of_ofClock? ht (Int.natCast_nonneg year) (Int.ofNat_le.mpr hyear))
  · exact Ensures.throw

theorem Time.ensures_read : Ensures read IsPlain := by
  refine Ensures.bind_any fun e => Ensures.ite (fun _ => Ensures.throw_bind) fun _ => ?_
  refine Ensures.lift fun t h => ?_
  obtain ⟨u, hu, -⟩ := Input.of_readAll h
  exact ensures_readContent e.tag _ _ _ hu

theorem Validity.ensures_read : Ensures read fun v => v.notAfter.IsPlain :=
  ensures_inSequence <| Ensures.bind_any fun _ => Time.ensures_read.bind fun _ ht => Ensures.pure ht

/-! ### Extensions -/

theorem Der.ensures_octetString : Ensures octetString fun bs => bs.length < lengthBound := by
  intro s bs t h
  obtain ⟨e, u, he, h⟩ := run_bind_eq_ok.mp h
  obtain ⟨content, hcontent, h⟩ := run_lift_eq_ok.mp h
  rw [Prod.mk.injEq] at h
  obtain ⟨rfl, -⟩ := h
  obtain ⟨-, -, rfl⟩ := Element.of_primitive hcontent
  exact length_lt_of_element? (elementOf_eq_ok he).2

/-- No two extensions of a list are of one kind. -/
def Extension.Distinct (es : List Extension) : Prop :=
  es.Pairwise fun e f => e.id ≠ f.id

namespace Extension

theorem ensures_readNext {before : List Extension} (hd : Distinct before) :
    Ensures (readNext before) fun o => ∀ es ∈ o, Distinct es := by
  refine Ensures.bind_any fun o => ?_
  cases o with
  | none => exact Ensures.pure (by simp)
  | some e =>
    dsimp only
    split
    · exact Ensures.throw
    · rename_i hnew
      refine Ensures.pure fun es hes => ?_
      obtain rfl := Option.some.inj hes
      refine List.pairwise_append.mpr ⟨hd, List.pairwise_singleton _ _, fun x hx y hy => ?_⟩
      rw [List.mem_singleton] at hy
      subst hy
      exact fun hid => hnew (List.any_eq_true.mpr ⟨x, hx, by simp [hid]⟩)

theorem ensures_readList : Ensures readList Distinct :=
  ensures_inSequence (ensures_repeated List.Pairwise.nil fun _ hd => ensures_readNext hd)

/-- In such a list an extension is the first of its kind. -/
theorem Distinct.find?_eq : ∀ {es : List Extension}, Distinct es → ∀ {e : Extension}, e ∈ es →
    es.find? (·.id == e.id) = some e
  | f :: es, hd, e, he => by
    obtain ⟨hf, hes⟩ := List.pairwise_cons.mp hd
    rcases List.mem_cons.mp he with rfl | he
    · simp
    · have hne : (f.id == e.id) = false := by simpa using hf e he
      rw [List.find?_cons_of_neg (by simp [hne])]
      exact Distinct.find?_eq hes he

/-- The values of some extensions are not longer than what stands in front of them can announce. -/
def Bounded (es : List Extension) : Prop :=
  ∀ e ∈ es, e.value.length < lengthBound

theorem ensures_readList_bounded : Ensures readList Bounded := by
  refine ensures_inSequence (ensures_repeated (by simp [Bounded]) fun before hbefore => ?_)
  have hparts : Ensures readParts fun e => e.value.length < lengthBound :=
    Ensures.bind_any fun _ => Ensures.bind_any fun _ =>
      ensures_octetString.bind fun _ hvalue => Ensures.pure hvalue
  refine (ensures_inSequence? hparts).bind fun o ho => ?_
  cases o with
  | none => exact Ensures.pure (by simp)
  | some e =>
    refine Ensures.ite (fun _ => Ensures.throw) fun _ => Ensures.pure fun es hes => ?_
    obtain rfl := Option.some.inj hes
    exact List.forall_mem_append.mpr ⟨hbefore, List.forall_mem_singleton.mpr (ho e rfl)⟩

end Extension

/-! ### Certificates -/

namespace Certificate

/-- What holds of every decoded certificate. -/
structure IsDecoded (c : Certificate) : Prop where
  distinct : Extension.Distinct c.extensions
  key : c.publicKey.IsWhole
  notAfter : c.validity.notAfter.IsPlain

variable {V : Validity → Prop} {K : PublicKey → Prop} {E : List Extension → Prop}

/-- What the readers of the parts give holds of the parts. -/
theorem ensures_readSigned (hvalidity : Ensures Validity.read V) (hkey : Ensures PublicKey.read K)
    (hextensions : Ensures Extension.readList E) (signedPart algorithm : Octets)
    (signature : BitString) : Ensures (readSigned signedPart algorithm signature) fun c =>
      V c.validity ∧ K c.publicKey ∧ E c.extensions := by
  refine ensures_inSequence ?_
  -- the version, the serial number, the algorithm and the issuer
  iterate 4 refine Ensures.bind_any fun _ => ?_
  refine hvalidity.bind fun validity hv => Ensures.bind_any fun _ => hkey.bind fun key hk => ?_
  exact (ensures_constructed hextensions).bind fun es hes => Ensures.pure ⟨hv, hk, hes⟩

theorem ensures_read (hvalidity : Ensures Validity.read V) (hkey : Ensures PublicKey.read K)
    (hextensions : Ensures Extension.readList E) :
    Ensures read fun c => V c.validity ∧ K c.publicKey ∧ E c.extensions := by
  refine ensures_inSequence ?_
  iterate 3 refine Ensures.bind_any fun _ => ?_
  exact Ensures.lift fun _ hc =>
    property_of_decode (ensures_readSigned hvalidity hkey hextensions _ _ _) hc

theorem isDecoded_of_ofDer {bs : Octets} {c : Certificate} (h : ofDer bs = .ok c) :
    c.IsDecoded := by
  obtain ⟨hvalidity, hkey, hextensions⟩ := property_of_decode
    (ensures_read Validity.ensures_read PublicKey.ensures_read Extension.ensures_readList) h
  exact ⟨hextensions, hkey, hvalidity⟩

theorem IsDecoded.extension?_eq {c : Certificate} (hc : c.IsDecoded) {e : Extension}
    (he : e ∈ c.extensions) : c.extension? e.id = some e :=
  hc.distinct.find?_eq he

theorem mem_of_extension? {c : Certificate} {id : ObjectId} {e : Extension}
    (h : c.extension? id = some e) : e ∈ c.extensions ∧ e.id = id :=
  ⟨List.mem_of_find?_eq_some h, by simpa using List.find?_some h⟩

theorem ne_of_extension?_eq_none {c : Certificate} {id : ObjectId} (h : c.extension? id = none) :
    ∀ e ∈ c.extensions, e.id ≠ id := by
  intro e he
  simpa using List.find?_eq_none.mp h e he

theorem bounded_of_ofDer {bs : Octets} {c : Certificate} (h : ofDer bs = .ok c) :
    Extension.Bounded c.extensions :=
  (property_of_decode (ensures_read Validity.ensures_read PublicKey.ensures_read
    Extension.ensures_readList_bounded) h).2.2

theorem length_value_lt {c : Certificate} {id : ObjectId} {e : Extension}
    (h : Extension.Bounded c.extensions) (he : c.extension? id = some e) :
    e.value.length < lengthBound :=
  h e (mem_of_extension? he).1

end Certificate

end ResourcePki
