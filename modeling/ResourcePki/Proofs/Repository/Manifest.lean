import ResourcePki.Proofs.Record.Transfer
import ResourcePki.Proofs.Uri.Parts

/-!
Where the manifest of a repository is.

A manifest lies in a repository if both are on one host and in one module, and the path of the
manifest goes on below that of the repository. What is asked of a manifest is less: its URI has to
begin with that of the repository, octet for octet. The host is then always the same. The rest
follows exactly if the URI of the repository stops where a segment does; if it stops in the middle
of one, the manifest can be in another directory or module whose name begins alike.
-/

namespace ResourcePki

open Uri

/-- A path with a slash behind it, unless it is empty or has one. -/
def Uri.asDirectory (path : Octets) : Octets :=
  if path = [] ∨ path.getLast? = some slash then path else path ++ [slash]

namespace RsyncUri

/-- What a URI names is below what another one names. -/
structure LiesIn (u base : RsyncUri) : Prop where
  authority_eq : u.authority = base.authority
  moduleName_eq : u.moduleName = base.moduleName
  path : asDirectory base.path <+: u.path

/-- A URI stops where a segment of another one does: it ends in a slash, the other one goes on with
    a slash, or it is the other one and has no path. -/
def StopsAtSegment (base u : RsyncUri) : Prop :=
  base.octets.getLast? = some slash ∨ base.octets ++ [slash] <+: u.octets ∨
    u.octets = base.octets ∧ base.path = []

variable {u base : RsyncUri} {a m p rest : Octets}

/-! ### The parts of a URI and of one that goes on -/

/-- The slash behind the authority keeps it the same in whatever goes on. -/
theorem authority_eq_of_append (ha : slash ∉ a) (hbase : base.remainder = a ++ slash :: m)
    (hu : base.octets ++ rest = u.octets) : u.authority = base.authority := by
  have hrem : u.remainder = a ++ slash :: (m ++ rest) := by
    rw [remainder_append hu, hbase, List.append_assoc, List.cons_append]
  rw [authority_eq ha hrem, authority_eq ha hbase]

/-- A URI ends as what follows its scheme does. -/
theorem getLast?_octets (h : u.remainder = a ++ m) (hm : m ≠ []) :
    u.octets.getLast? = m.getLast? := by
  have hsplit : u.octets = (u.octets.take 8 ++ a) ++ m := by
    rw [List.append_assoc, ← h]
    exact (List.take_append_drop 8 u.octets).symm
  rw [hsplit, List.getLast?_append, List.getLast?_eq_some_getLast hm, Option.some_or]

/-- A URI without a path is continued below its module, or by a longer name. -/
theorem liesIn_iff_of_module (ha : slash ∉ a) (hm : slash ∉ m) (hne : m ≠ [])
    (hbase : base.remainder = a ++ slash :: m) (hu : base.octets ++ rest = u.octets) :
    u.LiesIn base ↔ base.StopsAtSegment u := by
  have hrem : u.remainder = a ++ slash :: (m ++ rest) := by
    rw [remainder_append hu, hbase, List.append_assoc, List.cons_append]
  have hpath : base.path = [] := by rw [path_eq ha hbase, afterSlash_eq_nil hm]
  have hlast : base.octets.getLast? ≠ some slash := by
    rw [getLast?_octets (List.append_cons a slash m ▸ hbase) hne]
    exact fun hl => hm (List.mem_of_getLast? hl)
  have hsegment : u.LiesIn base ↔ segment (m ++ rest) = m := by
    constructor
    · intro h
      have := h.moduleName_eq
      rwa [moduleName_eq ha hrem, moduleName_eq ha hbase, segment_eq_self hm] at this
    · intro h
      refine ⟨?_, ?_, ?_⟩
      · exact authority_eq_of_append ha hbase hu
      · rw [moduleName_eq ha hrem, moduleName_eq ha hbase, segment_eq_self hm, h]
      · rw [hpath]
        exact List.nil_prefix
  rw [hsegment, segment_append_eq_iff hm, StopsAtSegment, ← hu, List.prefix_append_right_inj]
  simp [hlast, hpath, or_comm]

/-- A URI with a path is continued below it, or by a longer name. -/
theorem liesIn_iff_of_path (ha : slash ∉ a) (hm : slash ∉ m)
    (hbase : base.remainder = a ++ slash :: (m ++ slash :: p))
    (hu : base.octets ++ rest = u.octets) : u.LiesIn base ↔ base.StopsAtSegment u := by
  have hrem : u.remainder = a ++ slash :: (m ++ slash :: (p ++ rest)) := by
    rw [remainder_append hu, hbase]
    simp
  have hpath : base.path = p := by rw [path_eq ha hbase, afterSlash_append_slash hm]
  have hlast : base.octets.getLast? = (slash :: p).getLast? :=
    getLast?_octets (a := a ++ slash :: m) (by simp [hbase]) (by simp)
  have hbelow : u.LiesIn base ↔ asDirectory p <+: p ++ rest := by
    constructor
    · intro h
      have := h.path
      rwa [hpath, path_eq ha hrem, afterSlash_append_slash hm] at this
    · intro h
      refine ⟨?_, ?_, ?_⟩
      · exact authority_eq_of_append ha hbase hu
      · rw [moduleName_eq ha hrem, moduleName_eq ha hbase, segment_append_slash hm,
          segment_append_slash hm]
      · rwa [hpath, path_eq ha hrem, afterSlash_append_slash hm]
  rw [hbelow, asDirectory, StopsAtSegment, hlast, hpath, ← hu, List.prefix_append_right_inj]
  by_cases hdir : p = [] ∨ p.getLast? = some slash
  · have hends : (slash :: p).getLast? = some slash := by
      rcases hdir with rfl | hdir
      · rfl
      · rw [List.getLast?_cons, hdir]
        rfl
    simp [hdir, hends]
  · rw [not_or] at hdir
    have hends : (slash :: p).getLast? ≠ some slash := by
      rw [List.getLast?_cons_of_ne_nil hdir.1]
      exact hdir.2
    simp [hdir, hends]

/-- A URI that goes on where a segment stops, and no other one, lies in what it goes on from. -/
theorem liesIn_iff_stopsAtSegment (h : base.octets <+: u.octets) :
    u.authority = base.authority ∧ (u.LiesIn base ↔ base.StopsAtSegment u) := by
  obtain ⟨rest, hu⟩ := h
  obtain ⟨a, m, ha, hm, hne, hbase | ⟨p, hbase⟩⟩ := base.remainder_cases
  · exact ⟨authority_eq_of_append ha hbase hu, liesIn_iff_of_module ha hm hne hbase hu⟩
  · exact ⟨authority_eq_of_append ha hbase hu, liesIn_iff_of_path ha hm hbase hu⟩

end RsyncUri

namespace Repository

/-- The repositories there are: those that are put together, and those of the records there are. -/
inductive IsAccepted : Repository → Prop where
  | made {base manifest : RsyncUri} {notification : Option HttpsUri} {p : Repository}
    (h : make base manifest notification = .ok p) : IsAccepted p
  | held {r : Record} {p : Repository} (hr : r.IsObtained) (hp : r.role = .ca p) : IsAccepted p

theorem IsAccepted.prefix {p : Repository} (h : p.IsAccepted) :
    p.base.octets <+: p.manifest.octets := by
  cases h with
  | made h =>
    obtain ⟨hbase, -, rfl⟩ := make_eq_ok.mp h
    exact hbase
  | held hr hp =>
    have hrole := hr.hasMeaning.role
    rw [hp] at hrole
    exact (make_eq_ok.mp hrole).1

/-- The manifest of a repository is on its host, and it lies in the repository if and only if the
    URI of the repository stops where a segment does. -/
theorem manifest_liesIn_iff {p : Repository} (h : p.IsAccepted) :
    p.manifest.authority = p.base.authority ∧
      (p.manifest.LiesIn p.base ↔ p.base.StopsAtSegment p.manifest) :=
  RsyncUri.liesIn_iff_stopsAtSegment h.prefix

theorem sample_manifest_liesIn :
    let base : RsyncUri := ⟨Octets.ofAscii "rsync://host/module/ca/", by decide +kernel⟩
    let manifest : RsyncUri := ⟨Octets.ofAscii "rsync://host/module/ca/ca.mft", by decide +kernel⟩
    IsAccepted ⟨base, manifest, none⟩ ∧ base.StopsAtSegment manifest ∧ manifest.LiesIn base := by
  intro base manifest
  have haccepted : IsAccepted ⟨base, manifest, none⟩ := .made (make_eq_ok.mpr
    ⟨⟨Octets.ofAscii "ca.mft", by decide +kernel⟩, by decide +kernel, rfl⟩)
  have hstops : base.StopsAtSegment manifest := Or.inl (by decide +kernel)
  exact ⟨haccepted, hstops, (manifest_liesIn_iff haccepted).2.mpr hstops⟩

/-- A manifest can be in the directory beside its repository, or in the module beside it. -/
theorem manifest_beside_repository :
    let directory : RsyncUri := ⟨Octets.ofAscii "rsync://host/module/ca", by decide +kernel⟩
    let neighbour : RsyncUri := ⟨Octets.ofAscii "rsync://host/mod", by decide +kernel⟩
    let manifest : RsyncUri := ⟨Octets.ofAscii "rsync://host/module/cab/ca.mft", by decide +kernel⟩
    (IsAccepted ⟨directory, manifest, none⟩ ∧ ¬manifest.LiesIn directory) ∧
      IsAccepted ⟨neighbour, manifest, none⟩ ∧ manifest.moduleName ≠ neighbour.moduleName := by
  intro directory neighbour manifest
  refine ⟨⟨.made (make_eq_ok.mpr ⟨⟨Octets.ofAscii "b/ca.mft", by decide +kernel⟩, by decide +kernel,
    rfl⟩), fun h => ?_⟩, .made (make_eq_ok.mpr ⟨⟨Octets.ofAscii "ule/cab/ca.mft",
    by decide +kernel⟩, by decide +kernel, rfl⟩), by decide +kernel⟩
  have hbelow : ¬asDirectory directory.path <+: manifest.path := by decide +kernel
  exact hbelow h.path

end Repository

end ResourcePki
