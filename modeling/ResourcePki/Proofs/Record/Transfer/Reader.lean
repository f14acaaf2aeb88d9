import ResourcePki.Proofs.Octets
import ResourcePki.Proofs.Reading
import ResourcePki.Record.Transfer.Reader

/-!
The pieces of the transfer form are read as they have been written.

`Takes r bs a` says that from octets that begin with `bs` the reader `r` takes just these and gives
`a`, whatever follows. A reader that is a chain then goes through what has been written piece by
piece (`Takes.run_bind`), and leaves what follows untouched.
-/

namespace ResourcePki.Transfer

variable {α β : Type}

/-- Of octets that begin with some, a reader takes these and gives something. -/
def Takes (r : Reader α) (bs : Octets) (a : α) : Prop :=
  ∀ rest, r (bs ++ rest) = .ok (a, rest)

/-- A chain of readers goes on behind what its first part has taken. -/
theorem Takes.run_bind {r : Reader α} {bs : Octets} {a : α} (h : Takes r bs a)
    (f : α → Reader β) (rest : Octets) : (r >>= f) (bs ++ rest) = f a rest := by
  show (r (bs ++ rest) >>= fun x => f x.1 x.2) = f a rest
  rw [h rest]
  rfl

theorem run_get_bind (f : Octets → Reader β) (bs : Octets) : (get >>= f) bs = f bs bs := rfl

theorem takes_take (bs : Octets) : Takes (take bs.length) bs bs := by
  intro rest
  rw [take, Octets.split?_append]

theorem takes_number {w n : Nat} (h : n < 256 ^ w) : Takes (number w) (Octets.ofNat w n) n := by
  have htake := takes_take (Octets.ofNat w n)
  rw [Octets.length_ofNat] at htake
  intro rest
  rw [number, htake.run_bind, Octets.toNat_ofNat_of_lt h]
  rfl

theorem run_take_eq_ok {n : Nat} {bs a rest : Octets} (h : take n bs = .ok (a, rest)) :
    bs = a ++ rest ∧ a.length = n := by
  unfold take at h
  split at h
  · rename_i parts hparts
    rw [Except.ok.injEq] at h
    subst h
    exact Octets.eq_append_of_split? hparts
  · simp at h

theorem ensures_number (n : Nat) : Ensures (number n) (· < 256 ^ n) := by
  have htake : Ensures (take n) fun bs => bs.length = n := fun _ _ _ h => (run_take_eq_ok h).2
  exact htake.bind fun bs hlen => Ensures.pure (hlen ▸ Octets.toNat_lt bs)

/-- What is right with octets that are there takes no more of them. -/
theorem run_orFault_bind {x : Except RecordFault α} {a : α} (h : x = .ok a) (f : α → Reader β) :
    (orFault x >>= f) = f a := by
  rw [h]
  rfl

theorem run_orFault_eq_ok {x : Except RecordFault α} {bs : Octets} {y : α × Octets} :
    orFault x bs = .ok y ↔ ∃ a, x = .ok a ∧ y = (a, bs) := by
  cases x with
  | ok a =>
    rw [orFault, run_pure_eq_ok]
    simp
  | error fault => simp [orFault, run_throw_ne_ok]

theorem ensures_orFault {x : Except RecordFault α} {P : α → Prop} (h : ∀ a, x = .ok a → P a) :
    Ensures (orFault x) P := by
  cases x with
  | ok a => exact Ensures.pure (h a rfl)
  | error fault => exact Ensures.throw

/-- Whole numbers of 64 bits come back from two's complement. -/
theorem ofSigned_signed {n : Int} (h : -9223372036854775808 ≤ n ∧ n < 9223372036854775808) :
    ofSigned (n % 0x10000000000000000).toNat = n := by
  unfold ofSigned
  split
  · omega
  · omega

/-- A text that is there may not be empty, and its length has to fit. -/
theorem takes_text {o : Option Octets} (hne : ∀ bs ∈ o, bs ≠ [])
    (hlen : (o.getD []).length < 4294967296) : Takes readText (writeText o) o := by
  intro rest
  cases o with
  | none => exact (takes_number (w := 4) (n := 0) (by decide)).run_bind _ rest
  | some bs =>
    rw [Option.getD_some] at hlen
    rw [writeText, List.append_assoc, readText, (takes_number (w := 4) hlen).run_bind,
      if_neg (by simpa using hne bs rfl)]
    exact (takes_take bs).run_bind _ rest

section

variable {item : Reader α} {write : α → Octets}

theorem takes_times : ∀ {as : List α}, (∀ a ∈ as, Takes item (write a) a) →
    Takes (readTimes item as.length) (as.flatMap write) as
  | [], _ => fun _ => rfl
  | a :: as, h => by
    intro rest
    have hrest := takes_times fun b hb => h b (List.mem_cons_of_mem a hb)
    rw [List.length_cons, readTimes, List.flatMap_cons, List.append_assoc,
      (h a List.mem_cons_self).run_bind, hrest.run_bind]
    rfl

theorem length_flatMap {length : Nat} (hlength : ∀ a, (write a).length = length) (as : List α) :
    (as.flatMap write).length = as.length * length := by
  induction as with
  | nil => simp
  | cons a as ih => rw [List.flatMap_cons, List.length_append, hlength, ih, List.length_cons,
      Nat.succ_mul, Nat.add_comm]

/-- Entries of one length are read as often as they have been written. -/
theorem takes_entries {length : Nat} {as : List α} (hlength : ∀ a, (write a).length = length)
    (h : ∀ a ∈ as, Takes item (write a) a) :
    Takes (readEntries length item as.length) (as.flatMap write) as := by
  intro rest
  have henough : ¬(as.flatMap write ++ rest).length < as.length * length := by
    rw [List.length_append, length_flatMap hlength]
    omega
  rw [readEntries, run_get_bind, if_neg henough]
  exact takes_times h rest

theorem ensures_times {P : α → Prop} (h : Ensures item P) :
    ∀ n, Ensures (readTimes item n) fun as => ∀ a ∈ as, P a
  | 0 => Ensures.pure (by simp)
  | n + 1 => h.bind fun a ha => (ensures_times h n).bind fun as has =>
      Ensures.pure (List.forall_mem_cons.mpr ⟨ha, has⟩)

theorem ensures_entries {P : α → Prop} (h : Ensures item P) (length n : Nat) :
    Ensures (readEntries length item n) fun as => ∀ a ∈ as, P a :=
  Ensures.bind_any fun _ => Ensures.ite (fun _ => Ensures.throw_bind) fun _ => ensures_times h n

theorem ensures_length_times : ∀ n, Ensures (readTimes item n) fun as => as.length = n
  | 0 => Ensures.pure rfl
  | n + 1 => Ensures.bind_any fun a => (ensures_length_times n).bind fun as has =>
      Ensures.pure (by rw [List.length_cons, has])

/-- As many entries are read as have been asked for. -/
theorem ensures_length_entries (length n : Nat) :
    Ensures (readEntries length item n) fun as => as.length = n :=
  Ensures.bind_any fun _ => Ensures.ite (fun _ => Ensures.throw_bind) fun _ => ensures_length_times n

end

end ResourcePki.Transfer
