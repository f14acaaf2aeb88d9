import Mathlib.Data.List.Sort
import ResourcePki.Proofs.Resources.As
import ResourcePki.RouterKeyTable

/-!
Which AS numbers an entry stands for.

An entry is expanded into the range of its numbers, and counted before that without being expanded.
Both agree with going through all numbers there are and asking of each whether the entry holds it.
This is so for every entry, in particular for a range that ends at the last number, and for one
whose ends are out of order, which holds nothing.
-/

namespace ResourcePki

/-- All AS numbers in ascending order. -/
def AsNumber.all : List AsNumber :=
  (List.range 4294967296).map ofNat

namespace AsEntry

instance (e : AsEntry) (n : AsNumber) : Decidable (e.Holds n) :=
  match e with
  | .inherit => inferInstanceAs (Decidable False)
  | .single m => inferInstanceAs (Decidable (m = n))
  | .range r => inferInstanceAs (Decidable (r.first.toNat ≤ n.toNat ∧ n.toNat ≤ r.last.toNat))

/-- The AS numbers that an entry holds, of all there are. -/
def covered (e : AsEntry) : List AsNumber :=
  AsNumber.all.filter fun n => e.Holds n

/-- The numbers between two others, of all below a bound. -/
theorem filter_range {a b n : Nat} (h : b < n) :
    (List.range n).filter (fun i => a ≤ i ∧ i ≤ b) = List.range' a (b + 1 - a) := by
  refine List.Perm.eq_of_pairwise' (List.pairwise_lt_range.filter _) List.pairwise_lt_range' ?_
  refine (List.perm_ext_iff_of_nodup (List.nodup_range.filter _) List.nodup_range').mpr fun i => ?_
  simp only [List.mem_filter, List.mem_range, List.mem_range'_1, decide_eq_true_eq]
  omega

theorem holds_iff_of_bounds? {e : AsEntry} {first last : AsNumber}
    (h : e.bounds? = some (first, last)) (n : AsNumber) :
    e.Holds n ↔ first.toNat ≤ n.toNat ∧ n.toNat ≤ last.toNat := by
  cases e with
  | inherit => simp [bounds?] at h
  | single m =>
    simp only [bounds?, Option.some.injEq, Prod.mk.injEq] at h
    obtain ⟨rfl, rfl⟩ := h
    rw [Holds, ← Nat.le_antisymm_iff]
    exact ⟨fun h => h ▸ rfl, fun h => by rw [← m.ofNat_toNat, h, n.ofNat_toNat]⟩
  | range r =>
    simp only [bounds?, Option.some.injEq, Prod.mk.injEq] at h
    obtain ⟨rfl, rfl⟩ := h
    rfl

/-- The numbers of an entry lie between its bounds, and all that do are there. -/
theorem covered_of_bounds? {e : AsEntry} {first last : AsNumber}
    (h : e.bounds? = some (first, last)) :
    e.covered = (List.range' first.toNat (last.toNat + 1 - first.toNat)).map AsNumber.ofNat := by
  rw [covered, AsNumber.all, List.filter_map, ← filter_range last.toNat_lt]
  refine congrArg (List.map AsNumber.ofNat) (List.filter_congr fun i hi => ?_)
  rw [List.mem_range] at hi
  simp only [Function.comp_apply, holds_iff_of_bounds? h, AsNumber.toNat_ofNat hi]

theorem mem_covered {e : AsEntry} {n : AsNumber} : n ∈ e.covered ↔ e.Holds n := by
  simp only [covered, AsNumber.all, List.mem_filter, List.mem_map, List.mem_range,
    decide_eq_true_eq, and_iff_right_iff_imp]
  exact fun _ => ⟨n.toNat, n.toNat_lt, n.ofNat_toNat⟩

end AsEntry

namespace RouterKeyTable

/-- An entry is expanded into all numbers that it holds. -/
theorem numbersOf_eq (e : AsEntry) : numbersOf e = e.covered := by
  cases e with
  | inherit => exact (List.filter_eq_nil_iff.mpr fun _ _ h => of_decide_eq_true h).symm
  | single n =>
    have hbounds : (AsEntry.single n).bounds? = some (n, n) := rfl
    rw [AsEntry.covered_of_bounds? hbounds, Nat.add_sub_cancel_left]
    simp [numbersOf, AsNumber.ofNat_toNat]
  | range r => exact (AsEntry.covered_of_bounds? rfl).symm

/-- An entry is counted as one for each number that it holds. -/
theorem countOf_eq (e : AsEntry) : countOf e = e.covered.length := by
  rw [← numbersOf_eq]
  cases e with
  | inherit => rfl
  | single n => rfl
  | range r => simp [countOf, numbersOf]

theorem numbersOfAll_eq (r : AsResources) :
    numbersOfAll r = r.entries.flatMap (·.covered) := by
  rw [numbersOfAll, funext numbersOf_eq]

theorem countAll_eq (r : AsResources) :
    countAll r = (r.entries.flatMap (·.covered)).length := by
  rw [countAll]
  induction r.entries with
  | nil => rfl
  | cons e es ih => rw [List.foldr_cons, ih, countOf_eq, List.flatMap_cons, List.length_append]

end RouterKeyTable

end ResourcePki
