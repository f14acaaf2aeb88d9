import ResourcePki.Proofs.Certificate.Fields
import ResourcePki.Proofs.Der.Within
import ResourcePki.Proofs.Resources.As
import ResourcePki.Proofs.Resources.Ip
import ResourcePki.Resources.Extension

/-!
Resources under choices that are more and less strict.

A builder looks at its limit only when it is asked to take an entry, and what it does with one that
it takes does not depend on it. So a builder with a higher limit takes all entries that another one
takes, and holds the same. Everything else in reading resources is the same for all choices, up to
one check of address families that only strict reading makes.
-/

namespace ResourcePki

open Der

/-- The first choice is at least as lax as the second one: it is strict only if the other one is,
    and allows as many entries. -/
structure DecodeOptions.AsLaxAs (lax options : DecodeOptions) : Prop where
  strict : lax.strict = true → options.strict = true
  maxIp : options.maxIp ≤ lax.maxIp
  maxAs : options.maxAs ≤ lax.maxAs

variable {lax options : DecodeOptions}

/-! ### IP resources -/

namespace IpBuilder

/-- The second builder holds the same, and has a limit that is not lower. -/
def Widens (b b' : IpBuilder) : Prop :=
  ∃ limit, b.limit ≤ limit ∧ b' = { b with limit }

theorem Widens.push {b b' c : IpBuilder} {e : IpEntry} (h : b.Widens b')
    (hc : b.push e = (c, .ok ())) : ∃ c', b'.push e = (c', .ok ()) ∧ c.Widens c' := by
  obtain ⟨limit, hlimit, rfl⟩ := h
  obtain ⟨hroom, claims, hclaims, rfl⟩ := of_push hc
  have hroom' : ¬limit ≤ b.entries.size := by omega
  refine ⟨setClaimed { b with limit, entries := b.entries.push e } e.family claims, ?_, limit, ?_, ?_⟩
  · have hsame : claimed { b with limit } e.family = b.claimed e.family := by
      cases e.family <;> rfl
    rw [IpBuilder.push, if_neg hroom', hsame, claim_eq, hclaims]
  · rw [limit_setClaimed]
    exact hlimit
  · cases e.family <;> rfl

theorem Widens.add {b b' c : IpBuilder} {e : IpEntry} (h : b.Widens b') (hc : b.add e = .ok c) :
    ∃ c', b'.add e = .ok c' ∧ c.Widens c' := by
  unfold IpBuilder.add at hc ⊢
  split at hc
  · rename_i d hpush
    obtain ⟨d', hd', hwidens⟩ := h.push hpush
    rw [Except.ok.injEq] at hc
    exact ⟨d', by rw [hd'], hc ▸ hwidens⟩
  · simp at hc

end IpBuilder

/-- Strict reading refuses some families, and reads the others in the same way. -/
theorem Family.within_read (h : lax.AsLaxAs options) :
    Within Eq (read options) (read lax) := by
  refine Within.bind_same fun bs => Within.throw_ite (fun hlax => ?_) (Within.refl _)
  exact ⟨hlax.1, h.strict hlax.2⟩

namespace IpResources

theorem within_readBlock (family : Family) {b b' : IpBuilder} (h : b.Widens b') :
    Within (Option.Rel IpBuilder.Widens) (readBlock family b) (readBlock family b') := by
  refine Within.bind_same fun o => ?_
  cases o with
  | none => exact Within.pure .none
  | some e =>
    refine Within.bind_same fun block => ?_
    exact (Within.lift fun c hc => h.add hc).bind fun c c' hcc' => Within.pure (.some hcc')

theorem within_readFamily (hoptions : lax.AsLaxAs options) {b b' : IpBuilder} (h : b.Widens b') :
    Within IpBuilder.Widens (readFamily options b) (readFamily lax b') := by
  refine (Family.within_read hoptions).bind fun family _ hfamily => ?_
  subst hfamily
  refine Within.bind_same fun e => Within.ite (fun _ => ?_) fun _ => Within.ite (fun _ => ?_)
    fun _ => Within.throw
  · exact Within.bind_same fun _ => Within.lift fun c hc => h.add hc
  · exact within_inside (within_repeated (fun _ _ h => within_readBlock family h) h) e

/-- What is read by a choice is read by any that is laxer. -/
theorem within_read (h : lax.AsLaxAs options) : Within Eq (read options) (read lax) := by
  have hnew : (IpBuilder.new options.maxIp).Widens (.new lax.maxIp) := ⟨lax.maxIp, h.maxIp, rfl⟩
  refine within_inSequence ((within_repeated (fun _ _ hb =>
    within_inSequence? (within_readFamily h hb)) hnew).bind ?_)
  rintro b _ ⟨limit, -, rfl⟩
  exact Within.pure rfl

theorem ofExtension_of_asLaxAs (h : lax.AsLaxAs options) {e : Extension} {r : IpResources}
    (hr : ofExtension options e = .ok r) : ofExtension lax e = .ok r := by
  obtain ⟨hcritical, hr⟩ := Extension.requireCritical_bind_eq_ok.mp hr
  rw [lift_decoding_eq_ok] at hr
  obtain ⟨r', hr', rfl⟩ := decode_of_within (within_read h) hr
  exact Extension.requireCritical_bind_eq_ok.mpr ⟨hcritical, lift_decoding_eq_ok.mpr hr'⟩

end IpResources

/-! ### AS resources -/

namespace AsBuilder

/-- The second builder holds the same, and has a limit that is not lower. -/
def Widens (b b' : AsBuilder) : Prop :=
  ∃ limit, b.limit ≤ limit ∧ b' = { b with limit }

theorem Widens.add {b b' c : AsBuilder} {e : AsEntry} (h : b.Widens b') (hc : b.add e = .ok c) :
    ∃ c', b'.add e = .ok c' ∧ c.Widens c' := by
  obtain ⟨limit, hlimit, rfl⟩ := h
  unfold AsBuilder.add at hc ⊢
  split at hc
  · rename_i d hpush
    obtain ⟨hroom, claims, hclaims, rfl⟩ := of_push hpush
    rw [Except.ok.injEq] at hc
    subst hc
    have hroom' : ¬limit ≤ b.entries.size := by omega
    have hpush' : push { b with limit } e
        = ({ b with limit, claimed := claims, entries := b.entries.push e }, .ok ()) := by
      rw [push, if_neg hroom', claim_eq, hclaims]
    exact ⟨_, by rw [hpush'], limit, hlimit, rfl⟩
  · simp at hc

end AsBuilder

namespace AsResources

theorem within_readEntry {b b' : AsBuilder} (h : b.Widens b') :
    Within (Option.Rel AsBuilder.Widens) (readEntry b) (readEntry b') := by
  refine Within.bind_same fun o => ?_
  cases o with
  | none => exact Within.pure .none
  | some e =>
    refine Within.bind_same fun entry => ?_
    exact (Within.lift fun c hc => h.add hc).bind fun c c' hcc' => Within.pure (.some hcc')

theorem finish_eq {b b' : AsBuilder} (h : b.Widens b') : b.finish = b'.finish := by
  obtain ⟨limit, -, rfl⟩ := h
  rfl

theorem within_readNumbers (h : lax.AsLaxAs options) :
    Within Eq (readNumbers options) (readNumbers lax) := by
  have hnew : (AsBuilder.new options.maxAs).Widens (.new lax.maxAs) := ⟨lax.maxAs, h.maxAs, rfl⟩
  refine Within.bind_same fun e => Within.ite (fun _ => ?_) fun _ => Within.ite (fun _ => ?_)
    fun _ => Within.throw
  · refine Within.bind_same fun _ => (Within.lift fun c hc => hnew.add hc).bind fun b b' hb => ?_
    exact Within.pure (finish_eq hb)
  · refine (within_inside (within_repeated (fun _ _ hb => within_readEntry hb) hnew) e).bind
      fun b b' hb => ?_
    exact Within.pure (finish_eq hb)

theorem within_read (h : lax.AsLaxAs options) : Within Eq (read options) (read lax) := by
  refine within_inSequence ((within_constructed? (within_readNumbers h)).bind fun o o' ho => ?_)
  have hsame : o = o' := by
    cases ho with
    | none => rfl
    | some heq => rw [heq]
  subst hsame
  exact Within.refl _

theorem ofExtension_of_asLaxAs (h : lax.AsLaxAs options) {e : Extension} {r : AsResources}
    (hr : ofExtension options e = .ok r) : ofExtension lax e = .ok r := by
  obtain ⟨hcritical, hr⟩ := Extension.requireCritical_bind_eq_ok.mp hr
  rw [lift_decoding_eq_ok] at hr
  obtain ⟨r', hr', rfl⟩ := decode_of_within (within_read h) hr
  exact Extension.requireCritical_bind_eq_ok.mpr ⟨hcritical, lift_decoding_eq_ok.mpr hr'⟩

end AsResources

end ResourcePki
