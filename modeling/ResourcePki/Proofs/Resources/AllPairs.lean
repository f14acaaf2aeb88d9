import ResourcePki.Proofs.Resources.As
import ResourcePki.Proofs.Resources.Collector
import ResourcePki.Proofs.Resources.Ip

/-!
The builders of IP and AS resources behave as if they compared every pair of entries.

Addresses of both families are numbers of 128 bits, and entries of different families have nothing
to do with each other; all AS entries are of one class. The entries are those that can be made: the
ends of a range have been put in order, anything else can be of any value, the reserved AS number
and a block of all addresses included.
-/

namespace ResourcePki

/-! ### IP resources -/

namespace IpEntry

/-- Whether an entry holds an address; one that inherits holds none itself. -/
def Holds (e : IpEntry) (a : Address) : Prop :=
  ∃ b ∈ e.block?, b.first.value ≤ a.value ∧ a.value ≤ b.last.value

/-- An entry that can be made: the ends of a range are in order. -/
def IsMade : IpEntry → Prop
  | .block _ (.ofRange r) => ∃ a b, AddressRange.make a b = .ok r
  | _ => True

/-- Entries are compared with those of the same family. -/
def kind : EntryKind IpEntry where
  Class := Family
  classOf := family
  Inherits e := e.isInherit = true
  Number := Address
  Holds := Holds

theorem IsMade.first_le_last {e : IpEntry} (he : e.IsMade) : ∀ s ∈ e.span?, s.first ≤ s.last := by
  intro s hs
  obtain ⟨b, hb, rfl⟩ := Option.map_eq_some_iff.mp hs
  cases e with
  | inherit family => simp [block?] at hb
  | block family b' =>
    obtain rfl := Option.some.inj hb
    cases b' with
    | ofPrefix p => exact Address.le_ceil_value _ _
    | ofRange r =>
      obtain ⟨a, b, hmake⟩ := he
      obtain ⟨rfl, hle⟩ := AddressRange.of_make hmake
      exact hle

end IpEntry

namespace IpBuilder

/-- The builder of IP resources as it is seen from outside. -/
def collector : Collector IpEntry IpResourceError where
  State := IpBuilder
  new := new
  push := push
  entries b := b.entries.toList
  error
    | .tooMany => .tooMany
    | .inherit => .inherit
    | .overlap => .overlap

section

variable {b : IpBuilder} {e : IpEntry}

/-- A claim that is refused leaves its family, and so the builder, as it was. -/
theorem push_of_error {conflict : Conflict} (hroom : b.entries.size < b.limit)
    (h : ((b.claimed e.family).claim e.span?).2 = .error conflict) :
    b.push e = (b, .error (collector.error conflict.refusal)) := by
  have hclaim : (b.claimed e.family).claim e.span? = (b.claimed e.family, .error conflict) :=
    Prod.ext (Claimed.eq_of_claim_error (Prod.ext rfl h)) h
  rw [push, if_neg (Nat.not_le.mpr hroom), claim_eq, hclaim]
  cases conflict <;> exact congrArg (·, _) (setClaimed_claimed b e.family)

theorem push_of_ok {c : Claimed} (hroom : b.entries.size < b.limit)
    (h : (b.claimed e.family).claim e.span? = (c, .ok ())) :
    b.push e = (setClaimed { b with entries := b.entries.push e } e.family c, .ok ()) := by
  rw [push, if_neg (Nat.not_le.mpr hroom), claim_eq, h]

end

/-- The builder keeps the claims of each family. -/
def bookkeeping : Bookkeeping collector IpEntry.kind IpEntry.IsMade where
  limit := limit
  claimed := claimed
  span? := IpEntry.span?
  limit_new _ := rfl
  entries_new _ := rfl
  claimed_new _ k := by cases k <;> rfl
  push_full b e hfull := if_pos hfull
  push_error b e conflict hroom hclaim := push_of_error hroom hclaim
  push_ok b e c hroom hclaim := by
    refine ⟨_, push_of_ok hroom hclaim, limit_setClaimed _ _ _, ?_, ?_, fun k hk => ?_⟩
    · exact (congrArg Array.toList (entries_setClaimed _ _ _)).trans Array.toList_push
    · exact (claimed_setClaimed _ _ _ _).trans (if_pos rfl)
    · exact (claimed_setClaimed _ _ _ _).trans (if_neg hk)
  first_le_last _ he := he.first_le_last
  inherits_iff e := by
    cases e <;> simp [IpEntry.kind, IpEntry.isInherit, IpEntry.span?, IpEntry.block?]
  value := Address.value
  holds_iff e a := by simp [IpEntry.kind, IpEntry.Holds, IpEntry.span?]
  exists_first e s hs := by
    obtain ⟨b, -, rfl⟩ := Option.map_eq_some_iff.mp hs
    exact ⟨b.first, rfl⟩

end IpBuilder

/-! ### AS resources -/

namespace AsEntry

/-- An entry that can be made: the ends of a range are in order and differ. -/
def IsMade : AsEntry → Prop
  | .range r => ∃ a b, AsRange.make a b = .ok r
  | _ => True

/-- All entries are of one class. -/
def kind : EntryKind AsEntry where
  Class := Unit
  classOf _ := ()
  Inherits e := e = .inherit
  Number := AsNumber
  Holds e n := e.Holds n

theorem IsMade.first_le_last {e : AsEntry} (he : e.IsMade) : ∀ s ∈ e.span?, s.first ≤ s.last := by
  intro s hs
  cases e with
  | inherit => simp [span?, bounds?] at hs
  | single n =>
    obtain rfl := Option.some.inj hs
    exact Nat.le_refl _
  | range r =>
    obtain rfl := Option.some.inj hs
    obtain ⟨a, b, hmake⟩ := he
    obtain ⟨rfl, hlt⟩ := AsRange.of_make hmake
    exact Nat.le_of_lt hlt

theorem holds_iff_span? {e : AsEntry} {n : AsNumber} :
    e.Holds n ↔ ∃ s ∈ e.span?, s.first ≤ n.toNat ∧ n.toNat ≤ s.last := by
  cases e with
  | inherit => simp [Holds, span?, bounds?]
  | single m =>
    simp only [Holds, span?, bounds?, Option.map_some, Option.mem_some_iff, exists_eq_left']
    constructor
    · rintro rfl
      exact ⟨Nat.le_refl _, Nat.le_refl _⟩
    · rintro ⟨hle, hge⟩
      exact congrArg AsNumber.mk (UInt32.toNat_inj.mp (Nat.le_antisymm hle hge))
  | range r => simp [Holds, span?, bounds?]

end AsEntry

namespace AsBuilder

/-- The builder of AS resources as it is seen from outside. -/
def collector : Collector AsEntry AsResourceError where
  State := AsBuilder
  new := new
  push := push
  entries b := b.entries.toList
  error
    | .tooMany => .tooMany
    | .inherit => .inherit
    | .overlap => .overlap

section

variable {b : AsBuilder} {e : AsEntry}

/-- A claim that is refused leaves the others, and so the builder, as they were. -/
theorem push_of_error {conflict : Conflict} (hroom : b.entries.size < b.limit)
    (h : (b.claimed.claim e.span?).2 = .error conflict) :
    b.push e = (b, .error (collector.error conflict.refusal)) := by
  have hclaim : b.claimed.claim e.span? = (b.claimed, .error conflict) :=
    Prod.ext (Claimed.eq_of_claim_error (Prod.ext rfl h)) h
  rw [push, if_neg (Nat.not_le.mpr hroom), claim_eq, hclaim]
  cases conflict <;> rfl

theorem push_of_ok {c : Claimed} (hroom : b.entries.size < b.limit)
    (h : b.claimed.claim e.span? = (c, .ok ())) :
    b.push e = ({ b with claimed := c, entries := b.entries.push e }, .ok ()) := by
  rw [push, if_neg (Nat.not_le.mpr hroom), claim_eq, h]

end

/-- The builder keeps the claims of all entries. -/
def bookkeeping : Bookkeeping collector AsEntry.kind AsEntry.IsMade where
  limit := limit
  claimed b _ := b.claimed
  span? := AsEntry.span?
  limit_new _ := rfl
  entries_new _ := rfl
  claimed_new _ _ := rfl
  push_full b e hfull := if_pos hfull
  push_error b e conflict hroom hclaim := push_of_error hroom hclaim
  push_ok b e c hroom hclaim :=
    ⟨_, push_of_ok hroom hclaim, rfl, Array.toList_push, rfl, fun _ hk => absurd rfl hk⟩
  first_le_last _ he := he.first_le_last
  inherits_iff e := by cases e <;> simp [AsEntry.kind, AsEntry.span?, AsEntry.bounds?]
  value := AsNumber.toNat
  holds_iff _ _ := AsEntry.holds_iff_span?
  exists_first e s hs := by
    obtain ⟨b, -, rfl⟩ := Option.map_eq_some_iff.mp hs
    exact ⟨b.1, rfl⟩

end AsBuilder

/-- Both builders behave as if they compared every pair of entries, by their families and addresses
    or by their numbers, although a range is apart from all others if it is from its neighbours. -/
theorem builders_compareAll :
    (IpBuilder.collector.ComparesAll IpEntry.kind IpEntry.IsMade ∧
      AsBuilder.collector.ComparesAll AsEntry.kind AsEntry.IsMade) ∧
    IpBuilder.bookkeeping.LooksAtNeighbours ∧ AsBuilder.bookkeeping.LooksAtNeighbours :=
  ⟨⟨IpBuilder.bookkeeping.comparesAll, AsBuilder.bookkeeping.comparesAll⟩,
    IpBuilder.bookkeeping.looksAtNeighbours, AsBuilder.bookkeeping.looksAtNeighbours⟩

/-- A range and the number next to it are taken, in either order; the range and one that begins
    where it ends are not. -/
theorem builders_compareAll_sample :
    let range : AsEntry := .range ⟨⟨5⟩, ⟨7⟩⟩
    let touching : AsEntry := .single ⟨8⟩
    let crossing : AsEntry := .range ⟨⟨7⟩, ⟨9⟩⟩
    range.IsMade ∧ crossing.IsMade ∧ AsBuilder.collector.TakesAll 2 [range, touching] ∧
      AsBuilder.collector.TakesAll 2 [touching, range] ∧
      ¬AsBuilder.collector.TakesAll 2 [range, crossing] := by
  intro range touching crossing
  obtain ⟨⟨-, has⟩, -⟩ := builders_compareAll
  have hrange : range.IsMade := ⟨⟨5⟩, ⟨7⟩, rfl⟩
  have hcrossing : crossing.IsMade := ⟨⟨7⟩, ⟨9⟩, rfl⟩
  have htouching : touching.IsMade := trivial
  have hmade : ∀ x ∈ [range, touching], x.IsMade := by simp [hrange, htouching]
  have hapart : AsEntry.kind.Compatible range touching := by
    refine fun _ => ⟨by simp [AsEntry.kind, range], by simp [AsEntry.kind, touching], ?_⟩
    rintro n ⟨⟨-, hle⟩, rfl⟩
    exact absurd hle (by decide)
  have hmeet : ¬AsEntry.kind.Compatible range crossing := fun h =>
    (h rfl).2.2 ⟨7⟩ ⟨⟨by decide, by decide⟩, by decide, by decide⟩
  have htaken : AsBuilder.collector.TakesAll 2 [range, touching] :=
    (has.takesAll_iff 2 _ hmade).mpr ⟨Nat.le_refl 2, by simpa using hapart⟩
  refine ⟨hrange, hcrossing, htaken, ?_, fun h => ?_⟩
  · exact (has.takesAll_perm 2 _ _ (List.Perm.swap _ _ _) hmade).mp htaken
  · have hboth := (has.takesAll_iff 2 _ (by simp [hrange, hcrossing])).mp h
    exact hmeet (by simpa using hboth.2)

/-- A range, one that begins where it ends, inheriting, the number next to the range, and one more
    than there is room for. -/
example : AsBuilder.collector.answers (AsBuilder.new 2)
    [.range ⟨⟨5⟩, ⟨7⟩⟩, .range ⟨⟨7⟩, ⟨9⟩⟩, .inherit, .single ⟨8⟩, .single ⟨10⟩]
      = [.ok (), .error .overlap, .error .inherit, .ok (), .error .tooMany] := by
  decide +kernel

end ResourcePki
