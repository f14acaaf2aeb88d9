import Mathlib.Data.List.TakeWhile
import ResourcePki.Proofs.Uri.Scheme

/-!
The parts of rsync URIs.

Behind its scheme a URI has an authority, a slash and a module, and then either nothing or a slash
and a path. Neither the authority nor the module has a slash in it, so the parts are found again in
what they have been put together to, and in any URI that goes on behind it.
-/

namespace ResourcePki

namespace Uri

variable {a b : Octets}

theorem all_ne_slash (h : slash ∉ a) : ∀ x ∈ a, (x != slash) = true := by
  intro x hx
  rw [bne_iff_ne]
  rintro rfl
  exact h hx

theorem segment_append_slash (h : slash ∉ a) : segment (a ++ slash :: b) = a := by
  simp [segment, List.takeWhile_append_of_pos (all_ne_slash h)]

theorem afterSlash_append_slash (h : slash ∉ a) : afterSlash (a ++ slash :: b) = b := by
  simp [afterSlash, List.dropWhile_append_of_pos (all_ne_slash h)]

theorem segment_eq_self (h : slash ∉ a) : segment a = a :=
  List.takeWhile_eq_self_iff.mpr (all_ne_slash h)

theorem afterSlash_eq_nil (h : slash ∉ a) : afterSlash a = [] := by
  rw [afterSlash, List.dropWhile_eq_nil_iff.mpr (all_ne_slash h)]
  rfl

/-- A segment that goes on is longer, unless a slash comes first. -/
theorem segment_append_eq_iff (h : slash ∉ a) : segment (a ++ b) = a ↔ b = [] ∨ [slash] <+: b := by
  cases b with
  | nil => simp [segment_eq_self h]
  | cons x b =>
    by_cases hx : x = slash
    · subst hx
      simp [segment_append_slash h]
    · simp [segment, List.takeWhile_append_of_pos (all_ne_slash h), hx, Ne.symm hx]

end Uri

namespace RsyncUri

open Uri

theorem check_eq_ok {bs : Octets} : check bs = .ok () ↔ IsCommon .rsync bs ∧ 8 < bs.length ∧
    authorityOf (bs.drop 8) ≠ [] ∧ moduleOf (bs.drop 8) ≠ [] := by
  rw [check, bind_eq_ok]
  simp only [remainder_eq_ok, ite_error_eq_ok]
  constructor
  · rintro ⟨rest, ⟨hcommon, hlength, rfl⟩, hauthority, hmodule, -⟩
    exact ⟨hcommon, hlength, hauthority, hmodule⟩
  · rintro ⟨hcommon, hlength, hauthority, hmodule⟩
    exact ⟨bs.drop 8, ⟨hcommon, hlength, rfl⟩, hauthority, hmodule, trivial⟩

theorem of_check {bs : Octets} (h : check bs = .ok ()) :
    8 < bs.length ∧ authorityOf (bs.drop 8) ≠ [] ∧ moduleOf (bs.drop 8) ≠ [] :=
  (check_eq_ok.mp h).2

/-- Octets that are made of an authority, a module and possibly a path. -/
structure Splits (rest a m : Octets) (p : Option Octets) : Prop where
  authority_ne_nil : a ≠ []
  slash_notMem_authority : slash ∉ a
  module_ne_nil : m ≠ []
  slash_notMem_module : slash ∉ m
  eq_append : rest = a ++ slash :: (m ++ p.elim [] (slash :: ·))

theorem exists_splits {rest : Octets} (hauthority : authorityOf rest ≠ [])
    (hmodule : moduleOf rest ≠ []) : ∃ a m p, Splits rest a m p := by
  have hslash : slash ∈ rest :=
    Decidable.not_not.mp fun hnot => hmodule (congrArg segment (afterSlash_eq_nil hnot))
  obtain ⟨a, behind, rfl, ha⟩ := List.eq_append_cons_of_mem hslash
  rw [authorityOf, segment_append_slash ha] at hauthority
  rw [moduleOf, afterSlash_append_slash ha] at hmodule
  by_cases hpath : slash ∈ behind
  · obtain ⟨m, p, rfl, hm⟩ := List.eq_append_cons_of_mem hpath
    rw [segment_append_slash hm] at hmodule
    exact ⟨a, m, some p, hauthority, ha, hmodule, hm, rfl⟩
  · rw [segment_eq_self hpath] at hmodule
    exact ⟨a, behind, none, hauthority, ha, hmodule, hpath, by simp⟩

/-- Behind its scheme a URI has an authority, a module and possibly a path. -/
theorem remainder_cases (u : RsyncUri) : ∃ a m, slash ∉ a ∧ slash ∉ m ∧ m ≠ [] ∧
    (u.remainder = a ++ slash :: m ∨ ∃ p, u.remainder = a ++ slash :: (m ++ slash :: p)) := by
  obtain ⟨-, hauthority, hmodule⟩ := of_check u.check_eq
  obtain ⟨a, m, p, h⟩ : ∃ a m p, Splits u.remainder a m p := exists_splits hauthority hmodule
  refine ⟨a, m, h.slash_notMem_authority, h.slash_notMem_module, h.module_ne_nil, ?_⟩
  cases p with
  | none => exact Or.inl (by simpa using h.eq_append)
  | some p => exact Or.inr ⟨p, h.eq_append⟩

section

variable {u : RsyncUri} {a rest : Octets}

theorem authority_eq (ha : slash ∉ a) (h : u.remainder = a ++ slash :: rest) :
    u.authority = a := by
  rw [authority, authorityOf, h, segment_append_slash ha]

theorem moduleName_eq (ha : slash ∉ a) (h : u.remainder = a ++ slash :: rest) :
    u.moduleName = segment rest := by
  rw [moduleName, moduleOf, h, afterSlash_append_slash ha]

theorem path_eq (ha : slash ∉ a) (h : u.remainder = a ++ slash :: rest) :
    u.path = afterSlash rest := by
  rw [path, pathOf, h, afterSlash_append_slash ha]

end

/-- What follows the scheme goes on as the URI does. -/
theorem remainder_append {u base : RsyncUri} {rest : Octets}
    (h : base.octets ++ rest = u.octets) : u.remainder = base.remainder ++ rest := by
  have hlength := (of_check base.check_eq).1
  rw [remainder, remainder, ← h]
  exact List.drop_append_of_le_length (Nat.le_of_lt hlength)

end RsyncUri

end ResourcePki
