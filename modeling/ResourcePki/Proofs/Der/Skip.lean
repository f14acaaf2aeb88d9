import ResourcePki.Der.Skip
import ResourcePki.Proofs.Der.Header

/-!
The octets of a value that is stepped over.

Such a value is found without looking at what follows it, and how far the recursion may go makes no
difference as long as it is enough. So a value that has been cut out of a string is found again as
the whole of what was cut out. The recursion is mutual and on the bound, and so is the induction;
in each of the three parts the number of octets that are used is itself a sufficient bound.
-/

namespace ResourcePki.Der

/-- Stepping with a bound finds the same value again in front of anything and with any bound that is
    at least its length. -/
def StepsOver (step : Nat → Octets → Option Octets) (bs rest : Octets) : Prop :=
  ∃ v, bs = v ++ rest ∧ 2 ≤ v.length ∧
    ∀ fuel after, v.length ≤ fuel → step fuel (v ++ after) = some after

mutual

theorem skipValue_frame : ∀ {fuel : Nat} {bs rest : Octets}, skipValue fuel bs = some rest →
    StepsOver skipValue bs rest
  | 0, _, _, h => by simp [skipValue] at h
  | fuel + 1, bs, rest, h => by
    rw [skipValue] at h
    split at h
    · simp at h
    · rename_i tag n bs₁ hheader
      split at h
      · simp at h
      · rename_i htag
        obtain ⟨⟨content, after⟩, hsplit, hx⟩ := Option.map_eq_some_iff.mp h
        subst hx
        obtain ⟨rfl, hlen⟩ := Octets.eq_append_of_split? hsplit
        obtain ⟨hd, rfl, hpos, hframe⟩ := readHeader_frame hheader
        refine ⟨hd ++ content, by simp, by simp; omega, fun fuel' after' hfuel => ?_⟩
        obtain ⟨k, rfl⟩ : ∃ k, fuel' = k + 1 := ⟨fuel' - 1, by simp at hfuel; omega⟩
        simp [skipValue, hframe, htag, ← hlen, Octets.split?_append]
    · simp at h
    · rename_i tag n bs₁ hheader
      split at h
      · simp at h
      · rename_i content after hsplit
        obtain ⟨u, hu, hx⟩ := Option.map_eq_some_iff.mp h
        subst hx
        obtain ⟨rfl, hlen⟩ := Octets.eq_append_of_split? hsplit
        obtain ⟨hd, rfl, hpos, hframe⟩ := readHeader_frame hheader
        refine ⟨hd ++ content, by simp, by simp; omega, fun fuel' after' hfuel => ?_⟩
        rw [List.length_append] at hfuel
        obtain ⟨k, rfl⟩ : ∃ k, fuel' = k + 1 := ⟨fuel' - 1, by omega⟩
        have hcontent : skipValues k content = some () := skipValues_enough hu (by omega)
        simp [skipValue, hframe, ← hlen, Octets.split?_append, hcontent]
    · rename_i tag bs₁ hheader
      obtain ⟨v, rfl, hv, hend⟩ := skipToEnd_frame h
      obtain ⟨hd, rfl, hpos, hframe⟩ := readHeader_frame hheader
      refine ⟨hd ++ v, by simp, by simp; omega, fun fuel' after' hfuel => ?_⟩
      rw [List.length_append] at hfuel
      obtain ⟨k, rfl⟩ : ∃ k, fuel' = k + 1 := ⟨fuel' - 1, by omega⟩
      rw [skipValue, List.append_assoc, hframe]
      exact hend k after' (by omega)

theorem skipValues_enough : ∀ {fuel : Nat} {bs : Octets} {u : Unit},
    skipValues fuel bs = some u → ∀ {fuel' : Nat}, bs.length < fuel' →
      skipValues fuel' bs = some ()
  | 0, _, _, h, _, _ => by simp [skipValues] at h
  | fuel + 1, bs, u, h, fuel', hfuel => by
    obtain ⟨k, rfl⟩ : ∃ k, fuel' = k + 1 := ⟨fuel' - 1, by omega⟩
    rw [skipValues] at h
    rw [skipValues]
    split at h
    · rename_i hnil
      rw [if_pos hnil]
    · rename_i hne
      rw [if_neg hne]
      split at h
      · simp at h
      · rename_i rest hfirst
        obtain ⟨v, rfl, hv, hstep⟩ := skipValue_frame hfirst
        rw [List.length_append] at hfuel
        rw [hstep k rest (by omega)]
        exact skipValues_enough h (by omega)

theorem skipToEnd_frame : ∀ {fuel : Nat} {bs rest : Octets}, skipToEnd fuel bs = some rest →
    StepsOver skipToEnd bs rest
  | 0, _, _, h => by simp [skipToEnd] at h
  | fuel + 1, bs, rest, h => by
    rw [skipToEnd] at h
    split at h
    · rename_i hend
      rw [Option.some.injEq] at h
      refine ⟨[0, 0], ?_, by simp, fun fuel' after hfuel => ?_⟩
      · rw [← hend, ← h, List.take_append_drop]
      · obtain ⟨k, rfl⟩ : ∃ k, fuel' = k + 1 := ⟨fuel' - 1, by simp at hfuel; omega⟩
        simp [skipToEnd]
    · rename_i hend
      split at h
      · simp at h
      · rename_i rest' hfirst
        obtain ⟨v, rfl, hv, hstep⟩ := skipValue_frame hfirst
        obtain ⟨w, rfl, hw, hrest⟩ := skipToEnd_frame h
        refine ⟨v ++ w, by simp, by simp; omega, fun fuel' after hfuel => ?_⟩
        rw [List.length_append] at hfuel
        obtain ⟨k, rfl⟩ : ∃ k, fuel' = k + 1 := ⟨fuel' - 1, by omega⟩
        rw [List.take_append_of_le_length hv] at hend
        rw [skipToEnd, List.append_assoc, List.take_append_of_le_length hv, if_neg hend,
          hstep k _ (by omega)]
        exact hrest k after (by omega)

end

/-- The first value of a string is the whole of the octets that are cut out for it. -/
theorem firstValue?_self {bs v rest : Octets} (h : firstValue? bs = some (v, rest)) :
    firstValue? v = some (v, []) := by
  unfold firstValue? at h
  obtain ⟨rest', hskip, hx⟩ := Option.map_eq_some_iff.mp h
  simp only [Prod.mk.injEq] at hx
  obtain ⟨hv, rfl⟩ := hx
  obtain ⟨w, rfl, -, hstep⟩ := skipValue_frame hskip
  have hw : w = v := by
    rw [← hv]
    simp
  subst hw
  have hself := hstep (w.length + 2) [] (by omega)
  rw [List.append_nil] at hself
  simp [firstValue?, hself]

end ResourcePki.Der
