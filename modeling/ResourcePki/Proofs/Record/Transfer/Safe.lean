import Mathlib.Algebra.Ring.Nat
import ResourcePki.Proofs.Record.Transfer
import ResourcePki.Proofs.Record.Transfer.Bare

/-!
Records are restored safely from any octets.

A record is read with four demands for octets and no other look at how many are left: for the
header, for the entries of either kind, and for the length and the content of a text. Each of them
is for what is taken before the next one, so a bare reader never overruns its input, and it never
makes a prefix that is too long. What is taken for a record is the length of its form, and whatever
is restored keeps what its types promise.
-/

namespace ResourcePki

open Transfer

namespace Transfer.Form

/-- How many octets the parts take: the header, the entries, and each text behind its length. -/
def sentLength (f : Form) : Nat :=
  21 + 35 * f.ipResources.entries.length + 9 * f.asResources.entries.length
    + (f.texts.map fun text => 4 + (text.getD []).length).sum

theorem spends_read : Spends read fun f k => k = f.sentLength := by
  refine Spends.get_bind fun _ => Spends.ite (fun _ => Spends.throw_bind) fun _ => ?_
  refine (spends_number 8).bind fun seconds k₁ ⟨_, h₁⟩ => ?_
  refine (spends_orFault (Q := fun _ k => k = 0) fun _ _ => rfl).bind fun expires k₂ h₂ => ?_
  refine (spends_number 1).bind fun code k₃ ⟨_, h₃⟩ => ?_
  refine (spends_orFault (Q := fun _ k => k = 0) fun _ _ => rfl).bind fun purpose k₄ h₄ => ?_
  refine (spends_number 4).bind fun anchor k₅ ⟨_, h₅⟩ => ?_
  refine (spends_number 4).bind fun ipCount k₆ ⟨_, h₆⟩ => ?_
  refine (spends_number 4).bind fun asCount k₇ ⟨_, h₇⟩ => ?_
  refine (spends_readEntries spends_readIpEntry ipCount).bind fun ip k₈ h₈ => ?_
  refine (spends_readEntries spends_readAsEntry asCount).bind fun as k₉ h₉ => ?_
  refine spends_readText.bind fun manifest l₁ e₁ => ?_
  refine spends_readText.bind fun notification l₂ e₂ => ?_
  refine spends_readText.bind fun repository l₃ e₃ => ?_
  refine spends_readText.bind fun crlUri l₄ e₄ => ?_
  refine spends_readText.bind fun caIssuer l₅ e₅ => ?_
  refine spends_readText.bind fun authorityKey l₆ e₆ => ?_
  refine spends_readText.bind fun subjectKey l₇ e₇ => ?_
  refine spends_readText.bind fun routerKey l₈ e₈ => Spends.pure ?_
  simp only [sentLength, texts, List.map_cons, List.map_nil, List.sum_cons, List.sum_nil]
  rw [ipEntryLength] at h₈
  rw [asEntryLength] at h₉
  subst h₁ h₂ h₃ h₄ h₅ h₆ h₇ h₈ h₉ e₁ e₂ e₃ e₄ e₅ e₆ e₇ e₈
  omega

/-- No number of entries that is sent is more than can be asked for. -/
theorem mul_le_largestNeed {count length : Nat} (hcount : count < 256 ^ 4) (hlength : length ≤ 35) :
    count * length ≤ Bare.largestNeed := by
  have hmul := Nat.mul_le_mul (Nat.le_of_lt hcount) hlength
  exact Nat.le_trans hmul (by decide)

/-- The octets of the header are demanded together, everything else demands its own. -/
theorem agrees_read : Agrees 0 read Bare.readForm := by
  refine Agrees.demand ((agrees_number (by decide)).bind (spends_number 8)
    fun seconds k₁ ⟨_, h₁⟩ => ?_)
  refine (agrees_orFault _ _).bind (spends_orFault (Q := fun _ k => k = 0) fun _ _ => rfl)
    fun expires k₂ h₂ => ?_
  subst h₁ h₂
  refine (agrees_number (by decide)).bind (spends_number 1) fun code k₃ ⟨_, h₃⟩ => ?_
  refine (agrees_orFault _ _).bind (spends_orFault (Q := fun _ k => k = 0) fun _ _ => rfl)
    fun purpose k₄ h₄ => ?_
  subst h₃ h₄
  refine (agrees_number (by decide)).bind (spends_number 4) fun anchor k₅ ⟨_, h₅⟩ => ?_
  subst h₅
  refine (agrees_number (by decide)).bind (spends_number 4) fun ipCount k₆ ⟨hip, h₆⟩ => ?_
  subst h₆
  refine (agrees_number (by decide)).bind (spends_number 4) fun asCount k₇ ⟨has, h₇⟩ => ?_
  subst h₇
  have hips := agrees_readEntries agrees_readIpEntry spends_readIpEntry
    (mul_le_largestNeed hip (by decide))
  have hass := agrees_readEntries agrees_readAsEntry spends_readAsEntry
    (mul_le_largestNeed has (by decide))
  refine hips.bind_any fun ip => hass.bind_any fun as => ?_
  -- the texts
  iterate 8 refine agrees_readText.bind_any fun _ => ?_
  exact Agrees.pure _

end Transfer.Form

namespace Record

/-- The rsync URIs of a record. -/
def rsyncUris (r : Record) : List RsyncUri :=
  r.caIssuer.toList ++ r.crlUri.toList
    ++ r.role.repository?.toList.flatMap fun p => [p.base, p.manifest]

/-- The https URIs of a record. -/
def httpsUris (r : Record) : List HttpsUri :=
  (r.role.repository?.bind (·.notification)).toList

theorem agrees_readTransfer : Agrees 0 readTransfer Bare.readRecord :=
  Form.agrees_read.bind_any fun _ => agrees_orFault _ _

/-- Reading a record never overruns its input and never makes a prefix that is too long. If it gives
    a record, it has taken the octets of its form and no others, and all parts of the record pass
    the checks of their types. -/
theorem ofTransfer_safe (bs : Octets) :
    Bare.readRecord bs = (ofTransfer bs).mapError Stop.refused ∧
    ∀ r rest, ofTransfer bs = .ok (r, rest) →
      (∃ f taken, Form.read bs = .ok (f, rest) ∧ f.record = .ok r ∧ bs = taken ++ rest ∧
        taken.length = 21 + 35 * r.ipResources.entries.length
          + 9 * r.asResources.entries.length
          + (f.texts.map fun text => 4 + (text.getD []).length).sum) ∧
      (∀ family p, .block family (.ofPrefix p) ∈ r.ipResources.entries → p.IsProper family) ∧
      (∀ family q, .block family (.ofRange q) ∈ r.ipResources.entries →
        q.first.value ≤ q.last.value) ∧
      (∀ q, .range q ∈ r.asResources.entries → q.first.toNat < q.last.toNat) ∧
      (∀ u ∈ r.rsyncUris, RsyncUri.check u.octets = .ok ()) ∧
      (∀ u ∈ r.httpsUris, HttpsUri.check u.octets = .ok ()) ∧
      ∀ p, r.role = .ca p → Repository.make p.base p.manifest p.notification = .ok p := by
  refine ⟨agrees_readTransfer bs (Nat.zero_le _), fun r rest h => ?_⟩
  have hmeaning := hasMeaning_of_ofTransfer h
  refine ⟨?_, fun family p hp => hmeaning.ip _ hp, fun family q hq => hmeaning.ip _ hq,
    fun q hq => hmeaning.as _ hq, fun u _ => u.check_eq, fun u _ => u.check_eq, fun p hp => ?_⟩
  · obtain ⟨f, bs', hf, hr⟩ := run_bind_eq_ok.mp h
    obtain ⟨a, ha, hrest⟩ := run_orFault_eq_ok.mp hr
    rw [Prod.mk.injEq] at hrest
    obtain ⟨rfl, rfl⟩ := hrest
    obtain ⟨taken, hbs, hlen⟩ := Form.spends_read bs f _ hf
    obtain ⟨-, hip, has, -⟩ := Form.of_record ha
    rw [hip, has]
    exact ⟨f, taken, hf, ha, hbs, hlen⟩
  · have hrole := hmeaning.role
    rwa [hp] at hrole

/-- Of a record that has been sent, with octets behind it, a bare reader takes just its own. -/
theorem ofTransfer_safe_sample : ∃ bs r, ofTransfer (bs ++ [1, 2]) = .ok (r, [1, 2]) ∧
    Bare.readRecord (bs ++ [1, 2]) = .ok (r, [1, 2]) ∧ r.ipResources.entries.length = 2 ∧
    r.asResources.entries.length = 1 ∧ ∃ f, Form.read (bs ++ [1, 2]) = .ok (f, [1, 2]) ∧
      bs.length = 21 + 35 * 2 + 9 * 1 + (f.texts.map fun text => 4 + (text.getD []).length).sum := by
  have hsample : (ofDer {} sample).toOption.any (fun r => (Form.ofRecord r).Fits ∧
      r.ipResources.entries.length = 2 ∧ r.asResources.entries.length = 1) = true := by
    decide +kernel
  obtain ⟨r, hr⟩ := exists_ofDer_sample
  rw [hr] at hsample
  obtain ⟨hfits, hip, has⟩ := of_decide_eq_true hsample
  have h : ofTransfer (r.toTransfer ++ [1, 2]) = .ok (r.withoutCertificate, [1, 2]) :=
    takes_toTransfer (hasMeaning_of_ofDer hr) hfits [1, 2]
  obtain ⟨hbare, hsafe⟩ := ofTransfer_safe (r.toTransfer ++ [1, 2])
  obtain ⟨⟨f, taken, hf, -, hbs, hlen⟩, -⟩ := hsafe _ _ h
  obtain rfl := List.append_cancel_right hbs
  rw [show r.withoutCertificate.ipResources.entries.length = 2 from hip,
    show r.withoutCertificate.asResources.entries.length = 1 from has] at hlen
  exact ⟨r.toTransfer, r.withoutCertificate, h, by rw [hbare, h]; rfl, hip, has, f, hf, hlen⟩

end Record

end ResourcePki
