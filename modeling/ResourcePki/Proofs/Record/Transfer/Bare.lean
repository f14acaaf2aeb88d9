import ResourcePki.Proofs.Record.Transfer.Reader
import ResourcePki.Proofs.Octets
import ResourcePki.Record.Transfer

/-!
Reading the transfer form without looking whether octets are there.

Octets that come from another process can be taken faster if nothing is checked where they are
taken, but only where enough of them have been asked for beforehand. A bare reader does so: it
overruns the input where it takes more than is left, and it breaks down where a prefix gets more
bits than an address has. It agrees with a reader of the library on all inputs of some length if it
gives the same there, which is never such an end. How long the input has to be is what the parts
of a reader take together, so this is counted beside it. A demand for octets settles the length for
all that comes after it.
-/

namespace ResourcePki.Transfer

/-- How a bare reader ends that gives nothing. -/
inductive Stop where
  /-- The octets are refused. -/
  | refused (err : TransferError)
  /-- More octets have been taken than were there. -/
  | overrun
  /-- A prefix has been given more bits than an address has. -/
  | longPrefix
  deriving DecidableEq, Repr

/-- Reads something from the beginning of octets, which may end in a crash. -/
abbrev BareReader (α : Type) := StateT Octets (Except Stop) α

namespace Bare

/-- The next `n` octets, which have to be there. -/
def take (n : Nat) : BareReader Octets := fun bs =>
  match Octets.split? n bs with
  | some parts => .ok parts
  | none => .error .overrun

/-- The number that the next `n` octets spell. -/
def number (n : Nat) : BareReader Nat :=
  return Octets.toNat (← take n)

/-- Demands octets without taking them. -/
def need (n : Nat) : BareReader Unit := do
  if (← get).length < n then throw (.refused .shortInput)

/-- A fault in octets that are there. -/
def orFault {α : Type} : Except RecordFault α → BareReader α
  | .ok a => return a
  | .error fault => throw (.refused (.malformed fault))

/-- The block with the first bits of an address, of which there have to be as many. -/
def prefixOf (a : Address) (length : Nat) : BareReader AddressPrefix :=
  match AddressPrefix.make? a length with
  | some p => return p
  | none => throw .longPrefix

/-- The entry with the given kind and parts. -/
def ipEntryOf (family : Family) (kind length : Nat) (first last : Address) :
    BareReader IpEntry := do
  if kind = singleCode then
    if length > family.octets * 8 then orFault (.error .prefixLength)
    else return .block family (.ofPrefix (← prefixOf first length))
  else orFault (Transfer.ipEntryOf family kind length first last)

/-- Reads an entry of IP resources. -/
def readIpEntry : BareReader IpEntry := do
  let family ← orFault (familyOf (← number 1))
  let kind ← number 1
  let length ← number 1
  let first ← take 16
  let last ← take 16
  ipEntryOf family kind length (Address.ofOctets first) (Address.ofOctets last)

/-- Reads an entry of AS resources. -/
def readAsEntry : BareReader AsEntry := do
  let kind ← number 1
  let first ← number 4
  let last ← number 4
  orFault (asEntryOf kind (AsNumber.ofNat first) (AsNumber.ofNat last))

/-- Reads a number of items. -/
def readTimes {α : Type} (item : BareReader α) : (count : Nat) → BareReader (List α)
  | 0 => return []
  | count + 1 => do
    let a ← item
    return a :: (← readTimes item count)

/-- The largest number of octets that can be asked for. -/
def largestNeed : Nat := 0xffffffffffffffff

/-- Reads a number of items of one length, for which all octets are demanded beforehand. What is
    more than can be asked for counts as the most that can be. -/
def readEntries {α : Type} (length : Nat) (item : BareReader α) (count : Nat) :
    BareReader (List α) := do
  need (min (count * length) largestNeed)
  readTimes item count

/-- Reads a text behind its length. -/
def readText : BareReader (Option Octets) := do
  need 4
  let n ← number 4
  if n = 0 then return none
  need n
  return some (← take n)

/-- Reads the parts of a record. -/
def readForm : BareReader Form := do
  need Form.headerLength
  let expires ← orFault (Form.timeOf (ofSigned (← number 8)))
  let purpose ← orFault (purposeOf (← number 1))
  let anchorNumber := UInt32.ofNat (← number 4)
  let ipCount ← number 4
  let asCount ← number 4
  let ipEntries ← readEntries ipEntryLength readIpEntry ipCount
  let asEntries ← readEntries asEntryLength readAsEntry asCount
  let manifest ← readText
  let notification ← readText
  let repository ← readText
  let crlUri ← readText
  let caIssuer ← readText
  let authorityKey ← readText
  let subjectKey ← readText
  let routerKey ← readText
  return { expires, purpose, anchorNumber, ipResources := ⟨ipEntries⟩, asResources := ⟨asEntries⟩,
           manifest, notification, repository, crlUri, caIssuer, authorityKey, subjectKey,
           routerKey }

/-- Reads a record. -/
def readRecord : BareReader Record := do
  let form ← readForm
  orFault form.record

end Bare

variable {α β : Type}

/-! ### What readers take -/

/-- Whatever a reader gives, it has taken some octets, and what it gives and their number have a
    property. -/
def Spends (r : Reader α) (Q : α → Nat → Prop) : Prop :=
  ∀ bs a rest, r bs = .ok (a, rest) → ∃ taken, bs = taken ++ rest ∧ Q a taken.length

namespace Spends

variable {r : Reader α} {f : α → Reader β} {Q Q' : α → Nat → Prop} {S : β → Nat → Prop}

theorem pure {a : α} (h : Q a 0) : Spends (Pure.pure a) Q := by
  intro bs b rest hb
  rw [run_pure_eq_ok, Prod.mk.injEq] at hb
  obtain ⟨rfl, rfl⟩ := hb
  exact ⟨[], rfl, h⟩

theorem throw {e : TransferError} : Spends (MonadExcept.throw e : Reader α) Q :=
  fun _ _ _ h => absurd h run_throw_ne_ok

theorem bind (hr : Spends r Q) (hf : ∀ a k, Q a k → Spends (f a) fun b l => S b (k + l)) :
    Spends (r >>= f) S := by
  intro bs b rest h
  obtain ⟨a, bs', ha, hb⟩ := run_bind_eq_ok.mp h
  obtain ⟨taken, rfl, hQ⟩ := hr _ _ _ ha
  obtain ⟨taken', rfl, hS⟩ := hf _ _ hQ _ _ _ hb
  refine ⟨taken ++ taken', (List.append_assoc ..).symm, ?_⟩
  rwa [List.length_append]

theorem ite {c : Prop} [Decidable c] {r' : Reader α} (ht : c → Spends r Q)
    (hf : ¬c → Spends r' Q) : Spends (if c then r else r') Q := by
  split
  · exact ht ‹_›
  · exact hf ‹_›

/-- Looking at the input takes none of it. -/
theorem get_bind {g : Octets → Reader α} (h : ∀ bs, Spends (g bs) Q) : Spends (get >>= g) Q :=
  fun bs => h bs bs

/-- A block that has thrown an error does not go on. -/
theorem throw_bind {e : TransferError} :
    Spends ((MonadExcept.throw e : Reader α) >>= f) S :=
  bind (Q := fun _ _ => False) throw fun _ _ h => h.elim

theorem weaken (hr : Spends r Q) (h : ∀ a k, Q a k → Q' a k) : Spends r Q' := by
  intro bs a rest ha
  obtain ⟨taken, hbs, hQ⟩ := hr bs a rest ha
  exact ⟨taken, hbs, h a _ hQ⟩

end Spends

theorem spends_orFault {x : Except RecordFault α} {Q : α → Nat → Prop}
    (h : ∀ a, x = .ok a → Q a 0) : Spends (orFault x) Q := by
  cases x with
  | ok a => exact Spends.pure (h a rfl)
  | error fault => exact Spends.throw

theorem spends_take (n : Nat) : Spends (take n) fun bs k => bs.length = n ∧ k = n := by
  intro bs a rest h
  obtain ⟨hbs, hlen⟩ := run_take_eq_ok h
  exact ⟨a, hbs, hlen, hlen⟩

theorem spends_number (n : Nat) : Spends (number n) fun a k => a < 256 ^ n ∧ k = n := by
  refine (spends_take n).bind fun bs k ⟨hlen, hk⟩ => Spends.pure ⟨?_, by omega⟩
  exact hlen ▸ Octets.toNat_lt bs

theorem spends_readText : Spends readText fun o k => k = 4 + (o.getD []).length := by
  refine (spends_number 4).bind fun n k ⟨_, hk⟩ => Spends.ite (fun _ => ?_) fun _ => ?_
  · exact Spends.pure (by simp [hk])
  · refine (spends_take n).bind fun bs l ⟨hlen, hl⟩ => Spends.pure ?_
    rw [Option.getD_some]
    omega

theorem spends_readTimes {item : Reader α} {length : Nat}
    (h : Spends item fun _ k => k = length) :
    ∀ count, Spends (readTimes item count) fun as k => as.length = count ∧ k = count * length
  | 0 => Spends.pure ⟨rfl, by simp⟩
  | count + 1 => by
    refine h.bind fun a k hk => (spends_readTimes h count).bind fun as l ⟨has, hl⟩ =>
      Spends.pure ⟨by rw [List.length_cons, has], ?_⟩
    rw [hk, hl, Nat.succ_mul]
    omega

theorem spends_readEntries {item : Reader α} {length : Nat}
    (h : Spends item fun _ k => k = length) (count : Nat) :
    Spends (readEntries length item count) fun as k => k = length * as.length := by
  refine Spends.get_bind fun _ => Spends.ite (fun _ => Spends.throw_bind) fun _ => ?_
  refine (spends_readTimes h count).weaken fun as k ⟨has, hk⟩ => ?_
  rw [hk, has, Nat.mul_comm]

theorem spends_readIpEntry : Spends readIpEntry fun _ k => k = ipEntryLength := by
  refine (spends_number 1).bind fun code k₁ ⟨_, h₁⟩ => ?_
  refine (spends_orFault (Q := fun _ k => k = 0) fun _ _ => rfl).bind fun family k₂ h₂ => ?_
  refine (spends_number 1).bind fun kind k₃ ⟨_, h₃⟩ => ?_
  refine (spends_number 1).bind fun length k₄ ⟨_, h₄⟩ => ?_
  refine (spends_take 16).bind fun first k₅ ⟨_, h₅⟩ => ?_
  refine (spends_take 16).bind fun last k₆ ⟨_, h₆⟩ => spends_orFault fun _ _ => ?_
  rw [ipEntryLength]
  omega

theorem spends_readAsEntry : Spends readAsEntry fun _ k => k = asEntryLength := by
  refine (spends_number 1).bind fun kind k₁ ⟨_, h₁⟩ => ?_
  refine (spends_number 4).bind fun first k₂ ⟨_, h₂⟩ => ?_
  refine (spends_number 4).bind fun last k₃ ⟨_, h₃⟩ => spends_orFault fun _ _ => ?_
  rw [asEntryLength]
  omega

/-! ### Agreement -/

/-- On inputs of at least `n` octets a bare reader gives what a reader gives, and refuses what it
    refuses. -/
def Agrees (n : Nat) (r : Reader α) (b : BareReader α) : Prop :=
  ∀ bs : Octets, n ≤ bs.length → b bs = (r bs).mapError Stop.refused

namespace Agrees

variable {n : Nat} {r : Reader α} {b : BareReader α} {f : α → Reader β} {g : α → BareReader β}
  {Q : α → Nat → Prop}

theorem pure (a : α) : Agrees n (Pure.pure a) (Pure.pure a) :=
  fun _ _ => rfl

theorem throw (e : TransferError) :
    Agrees n (MonadExcept.throw e : Reader α) (MonadExcept.throw (Stop.refused e)) :=
  fun _ _ => rfl

/-- What follows a part has to agree on what the part leaves. -/
theorem bind_left (hr : Agrees n r b)
    (hf : ∀ bs a rest, n ≤ bs.length → r bs = .ok (a, rest) →
      g a rest = (f a rest).mapError Stop.refused) : Agrees n (r >>= f) (b >>= g) := by
  intro bs hn
  show (b bs >>= fun x => g x.1 x.2) = ((r bs >>= fun x => f x.1 x.2).mapError Stop.refused)
  rw [hr bs hn]
  cases hbs : r bs with
  | error e => rfl
  | ok x => exact hf bs x.1 x.2 hn hbs

/-- What follows a part has to agree where the octets of that part are gone. -/
theorem bind (hr : Agrees n r b) (hs : Spends r Q)
    (hf : ∀ a k, Q a k → Agrees (n - k) (f a) (g a)) : Agrees n (r >>= f) (b >>= g) := by
  refine hr.bind_left fun bs a rest hn ha => ?_
  obtain ⟨taken, rfl, hQ⟩ := hs _ _ _ ha
  rw [List.length_append] at hn
  exact hf a _ hQ rest (by omega)

/-- What demands all octets that it takes agrees on every input. -/
theorem bind_any (hr : Agrees n r b) (hf : ∀ a, Agrees 0 (f a) (g a)) :
    Agrees n (r >>= f) (b >>= g) :=
  hr.bind_left fun _ a rest _ _ => hf a rest (Nat.zero_le _)

theorem ite {c : Prop} [Decidable c] {r' : Reader α} {b' : BareReader α} (ht : c → Agrees n r b)
    (hf : ¬c → Agrees n r' b') : Agrees n (if c then r else r') (if c then b else b') := by
  by_cases h : c
  · rw [if_pos h, if_pos h]
    exact ht h
  · rw [if_neg h, if_neg h]
    exact hf h

/-- A demand settles the length of the input, where a reader refuses inputs that are shorter. -/
theorem need (hr : Agrees n r b) (hshort : ∀ bs : Octets, bs.length < n → r bs = .error .shortInput) :
    Agrees 0 r (Bare.need n >>= fun _ => b) := by
  intro bs _
  show (Bare.need n bs >>= fun x => b x.2) = _
  by_cases hn : bs.length < n
  · have hneed : Bare.need n bs = .error (.refused .shortInput) := by
      show (if bs.length < n then _ else _ : BareReader Unit) bs = _
      rw [if_pos hn]
      rfl
    rw [hneed, hshort bs hn]
    rfl
  · have hneed : Bare.need n bs = .ok ((), bs) := by
      show (if bs.length < n then _ else _ : BareReader Unit) bs = _
      rw [if_neg hn]
      rfl
    rw [hneed]
    exact hr bs (Nat.not_lt.mp hn)

end Agrees

theorem agrees_orFault (n : Nat) (x : Except RecordFault α) :
    Agrees n (orFault x) (Bare.orFault x) := by
  cases x with
  | ok a => exact Agrees.pure a
  | error fault => exact Agrees.throw _

theorem agrees_take {n k : Nat} (h : k ≤ n) : Agrees n (take k) (Bare.take k) := by
  intro bs hn
  have hsplit : Octets.split? k bs = some (bs.take k, bs.drop k) := by
    rw [Octets.split?, if_pos (List.length_take_of_le (Nat.le_trans h hn))]
  rw [take, Bare.take, hsplit]
  rfl

theorem agrees_number {n k : Nat} (h : k ≤ n) : Agrees n (number k) (Bare.number k) :=
  (agrees_take h).bind_any fun _ => Agrees.pure _

/-! ### The pieces of the transfer form -/

theorem take_of_short {n : Nat} {bs : Octets} (h : bs.length < n) :
    take n bs = .error .shortInput := by
  have hsplit : Octets.split? n bs = none := by
    rw [Octets.split?, if_neg]
    rw [List.length_take]
    omega
  rw [take, hsplit]

/-- A demand takes the place of a test of the length. -/
theorem Agrees.demand {n : Nat} {r : Reader α} {b : BareReader α} (h : Agrees n r b) :
    Agrees 0 (get >>= fun bs => if bs.length < n then
        (MonadExcept.throw .shortInput : Reader PUnit) >>= fun _ => r else r)
      (Bare.need n >>= fun _ => b) := by
  refine Agrees.need (fun bs hn => ?_) fun bs hn => ?_
  · rw [run_get_bind, if_neg (Nat.not_lt.mpr hn)]
    exact h bs hn
  · rw [run_get_bind, if_pos hn]
    rfl

theorem agrees_readText : Agrees 0 readText Bare.readText := by
  refine Agrees.need (n := 4) ((agrees_number (Nat.le_refl 4)).bind_any fun n => ?_) fun bs hn => ?_
  · refine Agrees.ite (fun _ => Agrees.pure none) fun _ => Agrees.need ?_ fun bs hn => ?_
    · exact (agrees_take (Nat.le_refl n)).bind_any fun _ => Agrees.pure _
    · show (take n bs >>= _) = _
      rw [take_of_short hn]
      rfl
  · show ((take 4 bs >>= _) >>= _) = _
    rw [take_of_short hn]
    rfl

theorem agrees_readTimes {item : Reader α} {bare : BareReader α} {length : Nat}
    (h : Agrees length item bare) (hs : Spends item fun _ k => k = length) :
    ∀ count, Agrees (count * length) (readTimes item count) (Bare.readTimes bare count)
  | 0 => Agrees.pure []
  | count + 1 => by
    have hfirst : Agrees ((count + 1) * length) item bare := fun bs hn =>
      h bs (Nat.le_trans (Nat.le_mul_of_pos_left _ (Nat.succ_pos count)) hn)
    refine hfirst.bind hs fun a k hk => ?_
    rw [hk, Nat.succ_mul, Nat.add_sub_cancel]
    exact (agrees_readTimes h hs count).bind_any fun as => Agrees.pure _

theorem agrees_readEntries {item : Reader α} {bare : BareReader α} {length count : Nat}
    (h : Agrees length item bare) (hs : Spends item fun _ k => k = length)
    (hcount : count * length ≤ Bare.largestNeed) :
    Agrees 0 (readEntries length item count) (Bare.readEntries length bare count) := by
  unfold Bare.readEntries
  rw [Nat.min_eq_left hcount]
  exact (agrees_readTimes h hs count).demand

/-- Once the length of a prefix has been checked, there is such a prefix. -/
theorem agrees_ipEntryOf (n : Nat) (family : Family) (kind length : Nat) (first last : Address) :
    Agrees n (orFault (ipEntryOf family kind length first last))
      (Bare.ipEntryOf family kind length first last) := by
  unfold Bare.ipEntryOf
  split
  · rename_i hkind
    rw [ipEntryOf, if_pos hkind]
    split
    · exact agrees_orFault n _
    · rename_i hlength
      have hle : length ≤ 128 := by
        have hfamily : family.octets * 8 ≤ 128 := by cases family <;> decide
        omega
      rw [Bare.prefixOf, AddressPrefix.make?, if_pos hle]
      exact Agrees.pure _
  · exact agrees_orFault n _

theorem agrees_readIpEntry : Agrees ipEntryLength readIpEntry Bare.readIpEntry := by
  refine (agrees_number (by decide)).bind (spends_number 1) fun code k₁ ⟨_, h₁⟩ => ?_
  refine (agrees_orFault _ _).bind (spends_orFault (Q := fun _ k => k = 0) fun _ _ => rfl)
    fun family k₂ h₂ => ?_
  subst h₁ h₂
  refine (agrees_number (by decide)).bind (spends_number 1) fun kind k₃ ⟨_, h₃⟩ => ?_
  subst h₃
  refine (agrees_number (by decide)).bind (spends_number 1) fun length k₄ ⟨_, h₄⟩ => ?_
  subst h₄
  refine (agrees_take (by decide)).bind (spends_take 16) fun first k₅ ⟨_, h₅⟩ => ?_
  subst h₅
  exact (agrees_take (by decide)).bind_any fun last => agrees_ipEntryOf _ _ _ _ _ _

theorem agrees_readAsEntry : Agrees asEntryLength readAsEntry Bare.readAsEntry := by
  refine (agrees_number (by decide)).bind (spends_number 1) fun kind k₁ ⟨_, h₁⟩ => ?_
  subst h₁
  refine (agrees_number (by decide)).bind (spends_number 4) fun first k₂ ⟨_, h₂⟩ => ?_
  subst h₂
  exact (agrees_number (by decide)).bind_any fun last => agrees_orFault _ _

end ResourcePki.Transfer
