import ResourcePki.Proofs.Record.Accepted
import ResourcePki.Proofs.Resources.Laxer

/-!
Certificates under choices that are more and less strict.

Choices are looked at where resources are read and where the name of a router is checked. In both
places a choice that is laxer refuses less and changes nothing of what is accepted. So a certificate
that is accepted by some choice is accepted by all that are laxer, and what is kept of it is the
same.
-/

namespace ResourcePki

variable {lax options : DecodeOptions}

namespace Findings

theorem add_of_asLaxAs (h : lax.AsLaxAs options) {f f' : Findings} {e : Extension}
    (hf : f.add options e = .ok f') : f.add lax e = .ok f' := by
  unfold add at hf ⊢
  split
  · rename_i hid
    rw [if_pos hid] at hf
    obtain ⟨r, hr, hf⟩ := bind_eq_ok.mp hf
    exact bind_eq_ok.mpr ⟨r, IpResources.ofExtension_of_asLaxAs h hr, hf⟩
  · rename_i hip
    rw [if_neg hip] at hf
    split
    · rename_i hid
      rw [if_pos hid] at hf
      obtain ⟨r, hr, hf⟩ := bind_eq_ok.mp hf
      exact bind_eq_ok.mpr ⟨r, AsResources.ofExtension_of_asLaxAs h hr, hf⟩
    · rename_i has
      -- no other extension is read by a choice
      rwa [if_neg has] at hf

theorem ofExtensions_of_asLaxAs (h : lax.AsLaxAs options) {es : List Extension} {f : Findings}
    (hf : ofExtensions options es = .ok f) : ofExtensions lax es = .ok f :=
  foldlM_of_imp (fun _ _ _ => add_of_asLaxAs h) hf

end Findings

namespace Record

theorem checkRouterName_of_asLaxAs (h : lax.AsLaxAs options) {role : Role} {ski : KeyIdentifier}
    (hname : checkRouterName options role ski = .ok ()) : checkRouterName lax role ski = .ok () := by
  cases role with
  | ca repository => rfl
  | router key =>
    by_cases hstrict : lax.strict = true
    · have hski := identifier_of_checkRouterName hname (h.strict hstrict)
      exact if_neg fun hother => hother.2 hski.symm
    · exact if_neg fun hother => hstrict hother.1

theorem IsMadeOf.of_asLaxAs (h : lax.AsLaxAs options) {c : Certificate} {f : Findings} {r : Record}
    (hr : IsMadeOf options c f r) : IsMadeOf lax c f r :=
  { hr with
    found := Findings.ofExtensions_of_asLaxAs h hr.found
    name := checkRouterName_of_asLaxAs h hr.name }

theorem ofCertificate_of_asLaxAs (h : lax.AsLaxAs options) {c : Certificate} {r : Record}
    (hr : ofCertificate options c = .ok r) : ofCertificate lax c = .ok r := by
  obtain ⟨hnumber, f, hf⟩ := ofCertificate_eq_ok.mp hr
  exact ofCertificate_eq_ok.mpr ⟨hnumber, f, hf.of_asLaxAs h⟩

/-- Choices only ever restrict: what is accepted by a choice is accepted by any that is at least as
    lax, and the same is kept of it. -/
theorem ofDer_of_asLaxAs (h : lax.AsLaxAs options) {bs : Octets} {r : Record}
    (hr : ofDer options bs = .ok r) : ofDer lax bs = .ok r := by
  obtain ⟨c, hc, hr⟩ := bind_eq_ok.mp hr
  exact bind_eq_ok.mpr ⟨c, hc, ofCertificate_of_asLaxAs h hr⟩

/-- The limits that are just high enough give what the usual ones give, even in strict mode. -/
theorem sample_of_strict : ∃ r, ofDer { strict := true, maxIp := 2, maxAs := 1 } sample = .ok r ∧
    ofDer {} sample = .ok r := by
  have h : (ofDer { strict := true, maxIp := 2, maxAs := 1 } sample).isOk = true := by
    decide +kernel
  cases hr : ofDer { strict := true, maxIp := 2, maxAs := 1 } sample with
  | ok r => exact ⟨r, rfl, ofDer_of_asLaxAs ⟨by decide, by decide, by decide⟩ hr⟩
  | error e => simp [hr, Except.isOk, Except.toBool] at h

end Record

end ResourcePki
