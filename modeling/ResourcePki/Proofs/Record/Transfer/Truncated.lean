import ResourcePki.Proofs.Record.Transfer

/-!
Records that have been cut off.

A reader takes octets from the front and asks beforehand whether there are enough of them. So what
it has made of some octets stays as it is when more of them come, unless it has found that there are
too few: what it gives it gives again, with the further octets left over, and what it refuses it
refuses again. The property is kept by chains of readers and by demands for octets, so it holds of
the reader of records.

If a reader takes some octets, it therefore finds every beginning of them too short. It cannot give
anything for the beginning, since it would leave more of the octets over then, and it cannot refuse
the beginning for another reason, since it would refuse all of them too.
-/

namespace ResourcePki.Transfer

variable {α β : Type}

/-- Unless it finds its input too short, a reader does the same with more octets behind the input,
    and leaves these over. -/
def Settles (r : Reader α) : Prop :=
  ∀ bs, r bs ≠ .error .shortInput → ∀ more : Octets,
    r (bs ++ more) = (r bs).map fun (a, rest) => (a, rest ++ more)

namespace Settles

variable {r : Reader α} {f : α → Reader β}

theorem pure (a : α) : Settles (Pure.pure a) :=
  fun _ _ _ => rfl

theorem throw (e : TransferError) : Settles (MonadExcept.throw e : Reader α) :=
  fun _ _ _ => rfl

theorem bind (hr : Settles r) (hf : ∀ a, Settles (f a)) : Settles (r >>= f) := by
  intro bs hlong more
  change (r bs >>= fun x => f x.1 x.2) ≠ _ at hlong
  show (r (bs ++ more) >>= fun x => f x.1 x.2) = (r bs >>= fun x => f x.1 x.2).map _
  cases hbs : r bs with
  | error e =>
    rw [hbs] at hlong
    have hother : Except.error (α := α × Octets) e ≠ .error .shortInput := fun h =>
      hlong (congrArg Except.error (Except.error.inj h))
    rw [hr bs (hbs ▸ hother) more, hbs]
    rfl
  | ok x =>
    rw [hbs] at hlong
    rw [hr bs (by simp [hbs]) more, hbs]
    exact hf x.1 x.2 hlong more

theorem ite {c : Prop} [Decidable c] {r' : Reader α} (ht : Settles r) (hf : Settles r') :
    Settles (if c then r else r') := by
  split
  · exact ht
  · exact hf

/-- An input that is long enough stays so with more octets. -/
theorem demand {n : Nat} (hr : Settles r) :
    Settles (get >>= fun bs => if bs.length < n then
      (MonadExcept.throw .shortInput : Reader PUnit) >>= fun _ => r else r) := by
  intro bs hlong more
  rw [run_get_bind] at hlong ⊢
  rw [run_get_bind]
  by_cases hn : bs.length < n
  · rw [if_pos hn] at hlong
    exact absurd rfl hlong
  · have hmore : ¬(bs ++ more).length < n := by
      rw [List.length_append]
      omega
    rw [if_neg hn] at hlong ⊢
    rw [if_neg hmore]
    exact hr bs hlong more

/-- Of octets that are taken, every beginning is too short. -/
theorem eq_shortInput (hr : Settles r) {bs rest cut : Octets} {a : α}
    (h : r (bs ++ rest) = .ok (a, rest)) (hcut : cut <+: bs) (hne : cut ≠ bs) :
    r cut = .error .shortInput := by
  obtain ⟨more, rfl⟩ := hcut
  by_contra hlong
  have hall := hr cut hlong (more ++ rest)
  rw [← List.append_assoc, h] at hall
  obtain ⟨x, -, hx⟩ := map_eq_ok.mp hall.symm
  -- what is left over is what has been left over before, and the octets behind the beginning
  have hrest : x.2 ++ (more ++ rest) = rest := congrArg Prod.snd hx
  have hlen := congrArg List.length hrest
  rw [List.length_append, List.length_append] at hlen
  have hnil : more = [] := List.eq_nil_of_length_eq_zero (by omega)
  rw [hnil, List.append_nil] at hne
  exact hne rfl

end Settles

/-! ### The pieces of the transfer form -/

theorem settles_orFault (x : Except RecordFault α) : Settles (orFault x) := by
  cases x with
  | ok a => exact Settles.pure a
  | error fault => exact Settles.throw _

theorem settles_take (n : Nat) : Settles (take n) := by
  intro bs hlong more
  unfold take at hlong ⊢
  cases hsplit : Octets.split? n bs with
  | none =>
    rw [hsplit] at hlong
    exact absurd rfl hlong
  | some parts =>
    obtain ⟨rfl, rfl⟩ := Octets.eq_append_of_split? hsplit
    rw [List.append_assoc, Octets.split?_append]
    rfl

theorem settles_number (n : Nat) : Settles (number n) :=
  (settles_take n).bind fun _ => Settles.pure _

theorem settles_readText : Settles readText :=
  (settles_number 4).bind fun n => Settles.ite (Settles.pure none) <|
    (settles_take n).bind fun text => Settles.pure (some text)

theorem settles_readTimes {item : Reader α} (h : Settles item) :
    ∀ count, Settles (readTimes item count)
  | 0 => Settles.pure []
  | count + 1 => h.bind fun a => (settles_readTimes h count).bind fun as => Settles.pure (a :: as)

theorem settles_readEntries {item : Reader α} (h : Settles item) (length count : Nat) :
    Settles (readEntries length item count) :=
  (settles_readTimes h count).demand

theorem settles_readIpEntry : Settles readIpEntry := by
  refine (settles_number 1).bind fun code => (settles_orFault _).bind fun family => ?_
  refine (settles_number 1).bind fun kind => (settles_number 1).bind fun length => ?_
  exact (settles_take 16).bind fun first => (settles_take 16).bind fun last => settles_orFault _

theorem settles_readAsEntry : Settles readAsEntry := by
  refine (settles_number 1).bind fun kind => ?_
  exact (settles_number 4).bind fun first => (settles_number 4).bind fun last => settles_orFault _

theorem Form.settles_read : Settles Form.read := by
  refine Settles.demand ((settles_number 8).bind fun seconds => ?_)
  refine (settles_orFault _).bind fun expires => (settles_number 1).bind fun code => ?_
  refine (settles_orFault _).bind fun purpose => (settles_number 4).bind fun anchorNumber => ?_
  refine (settles_number 4).bind fun ipCount => (settles_number 4).bind fun asCount => ?_
  refine (settles_readEntries settles_readIpEntry _ ipCount).bind fun ip => ?_
  refine (settles_readEntries settles_readAsEntry _ asCount).bind fun as => ?_
  -- the texts
  iterate 8 refine settles_readText.bind fun _ => ?_
  exact Settles.pure _

end ResourcePki.Transfer

namespace ResourcePki.Record

open Transfer

theorem settles_readTransfer : Settles readTransfer :=
  Form.settles_read.bind fun _ => settles_orFault _

/-- A record that has been sent is found too short wherever it is cut off, and so none is the
    beginning of another one. -/
theorem ofTransfer_take_toTransfer {r : Record} (h : r.IsObtained)
    (hfits : (Form.ofRecord r).Fits) :
    (∀ n < r.toTransfer.length, ofTransfer (r.toTransfer.take n) = .error .shortInput) ∧
      ∀ s : Record, s.IsObtained → (Form.ofRecord s).Fits → s.toTransfer <+: r.toTransfer →
        s.toTransfer = r.toTransfer := by
  have hcut : ∀ cut, cut <+: r.toTransfer → cut ≠ r.toTransfer →
      ofTransfer cut = .error .shortInput := fun cut hcut hne =>
    settles_readTransfer.eq_shortInput (takes_toTransfer h.hasMeaning hfits []) hcut hne
  refine ⟨fun n hn => hcut _ (List.take_prefix n _) fun heq => ?_, fun s hs hsfits hprefix => ?_⟩
  · have hlen := congrArg List.length heq
    rw [List.length_take] at hlen
    omega
  · by_contra hne
    have hshort := hcut _ hprefix hne
    have hread : ofTransfer (s.toTransfer ++ []) = .ok (s.withoutCertificate, []) :=
      takes_toTransfer hs.hasMeaning hsfits []
    rw [List.append_nil, hshort] at hread
    simp at hread

/-- A record cut off inside of its entries, and the same one under another trust anchor. -/
theorem ofTransfer_take_sample : ∃ r, ofDer {} sample = .ok r ∧ 60 < r.toTransfer.length ∧
    ofTransfer (r.toTransfer.take 60) = .error .shortInput ∧
    ¬(r.underAnchor 7).toTransfer <+: r.toTransfer := by
  have hsample : (ofDer {} sample).toOption.any (fun r => (Form.ofRecord r).Fits ∧
      60 < r.toTransfer.length ∧ (r.underAnchor 7).toTransfer ≠ r.toTransfer) = true := by
    decide +kernel
  obtain ⟨r, hr⟩ := exists_ofDer_sample
  rw [hr] at hsample
  obtain ⟨hfits, hlen, hne⟩ := of_decide_eq_true hsample
  obtain ⟨hcut, hprefix⟩ := ofTransfer_take_toTransfer (.decoded hr) hfits
  refine ⟨r, hr, hlen, hcut 60 hlen, fun h => hne ?_⟩
  exact hprefix _ (.underAnchor (.decoded hr) 7) ⟨hfits.ipCount, hfits.asCount, hfits.lengths⟩ h

end ResourcePki.Record
