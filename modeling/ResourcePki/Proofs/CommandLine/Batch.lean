import Mathlib.Data.List.Perm.Basic
import ResourcePki.Proofs.CommandLine.Arguments
import ResourcePki.Proofs.Record.RoleCheck
import ResourcePki.Proofs.Report
import ResourcePki.Proofs.RouterKeyTable.Expansion

/-!
What is printed of a batch of certificates.

Every file is read and checked by itself, so a batch splits into the paths whose files have an
accepted record and those whose files have none. The first ones alone make what is printed, the
others alone what is reported and the status. All files share one table of router keys, and this is
the only place where the order could matter. It does not: of a key only the time of expiry is
printed, which is the latest of all contributions in whichever order they come.
-/

namespace ResourcePki.CommandLine

/-! ### Files -/

/-- The check of a record that is asked for. -/
def check (q : Request) (now : Time) (c : Record) : Except ValidationError Record :=
  match q.anchorKey with
  | some key => c.asAnchor key now
  | none => c.asIssued

/-- There is a certificate in a file that can be decoded and that passes the check. -/
def Accepts (files : Files) (q : Request) (now : Time) (path : String) (r : Record) : Prop :=
  ∃ bs c, files path = .ok bs ∧ Record.ofDer q.options bs = .ok c ∧ check q now c = .ok r

theorem Accepts.unique {files : Files} {q : Request} {now : Time} {path : String} {r r' : Record}
    (h : Accepts files q now path r) (h' : Accepts files q now path r') : r = r' := by
  obtain ⟨bs, c, hfile, hdecode, hcheck⟩ := h
  obtain ⟨bs', c', hfile', hdecode', hcheck'⟩ := h'
  obtain rfl := Except.ok.inj (hfile.symm.trans hfile')
  obtain rfl := Except.ok.inj (hdecode.symm.trans hdecode')
  exact Except.ok.inj (hcheck.symm.trans hcheck')

theorem not_accepts_of_error {files : Files} {q : Request} {now : Time} {path : String}
    {reason : FileError} (h : files path = .error reason) (r : Record) :
    ¬Accepts files q now path r := by
  rintro ⟨bs, c, hfile, -⟩
  simp [h] at hfile

/-- The certificate in some octets cannot be decoded, or it does not pass the check. -/
inductive Rejects (q : Request) (now : Time) (bs : Octets) (e : ValidationError) : Prop where
  | decode (h : Record.ofDer q.options bs = .error e)
  | check {c : Record} (hdecode : Record.ofDer q.options bs = .ok c) (h : check q now c = .error e)

/-- The line on a file without an accepted record: why the file cannot be read, or why the
    certificate in it is rejected. -/
inductive Explains (w : Wording) (files : Files) (q : Request) (now : Time) (path : String) :
    String → Prop where
  | unreadable {reason : FileError} (hfile : files path = .error reason) :
    Explains w files q now path (path ++ ": Can’t read file: " ++ reason.message)
  | undecodable {bs : Octets} {cause : DecodeError} (hfile : files path = .ok bs)
    (h : Rejects q now bs (.decoding cause)) :
    Explains w files q now path (path ++ ": " ++
      (cause.message?.getD (w.fault q.options bs) ++ w.place q.options bs))
  | unfit {bs : Octets} {cause : InspectionError} (hfile : files path = .ok bs)
    (h : Rejects q now bs (.inspection cause)) :
    Explains w files q now path (path ++ ": " ++ cause.message)
  | unverified {bs : Octets} {cause : VerificationError} (hfile : files path = .ok bs)
    (h : Rejects q now bs (.verification cause)) :
    Explains w files q now path (path ++ ": " ++ cause.message)

section

variable {w : Wording} {files : Files} {q : Request} {now : Time} {path : String}

theorem accept_eq (bs : Octets) :
    accept q now bs = Record.ofDer q.options bs >>= check q now :=
  rfl

theorem rejects_iff {bs : Octets} {e : ValidationError} :
    Rejects q now bs e ↔ accept q now bs = .error e := by
  rw [accept_eq]
  constructor
  · rintro (hdecode | ⟨hdecode, h⟩)
    · rw [hdecode]
      rfl
    · rw [hdecode]
      exact h
  · intro h
    cases hdecode : Record.ofDer q.options bs with
    | error e' =>
      rw [hdecode] at h
      exact .decode (Except.error.inj h ▸ hdecode)
    | ok c =>
      rw [hdecode] at h
      exact .check hdecode h

theorem readFile_eq_ok {r : Record} :
    readFile w files q now path = .ok r ↔ Accepts files q now path r := by
  unfold readFile Accepts
  cases files path with
  | error reason => simp
  | ok bs =>
    have haccept : accept q now bs = .ok r ↔
        ∃ c, Record.ofDer q.options bs = .ok c ∧ check q now c = .ok r := by
      rw [accept_eq, bind_eq_ok]
    simp only [Except.ok.injEq, exists_eq_left', ← haccept, exists_and_left]
    cases accept q now bs <;> simp

theorem readFile_eq_error {line : String} :
    readFile w files q now path = .error line ↔ Explains w files q now path line := by
  unfold readFile
  constructor
  · intro h
    split at h
    · rename_i reason hfile
      exact Except.error.inj h ▸ .unreadable hfile
    · rename_i bs hfile
      split at h
      · simp at h
      · rename_i e he
        obtain rfl := Except.error.inj h
        have hrejects := rejects_iff.mpr he
        cases e with
        | decoding cause => exact .undecodable hfile hrejects
        | inspection cause => exact .unfit hfile hrejects
        | verification cause => exact .unverified hfile hrejects
  · intro h
    cases h with
    | unreadable hfile => simp only [hfile, unreadableMessage]
    | undecodable hfile h => simp only [hfile, rejects_iff.mp h, rejection]
    | unfit hfile h => simp only [hfile, rejects_iff.mp h, rejection]
    | unverified hfile h => simp only [hfile, rejects_iff.mp h, rejection]

/-- There is only one line to be printed on a file. -/
theorem Explains.unique {line line' : String} (h : Explains w files q now path line)
    (h' : Explains w files q now path line') : line = line' :=
  Except.error.inj ((readFile_eq_error.mpr h).symm.trans (readFile_eq_error.mpr h'))

end

/-! ### Batches -/

/-- Paths split into those with an accepted record and those without. -/
inductive Splits (files : Files) (q : Request) (now : Time) :
    List String → List (String × Record) → List String → Prop where
  | nil : Splits files q now [] [] []
  | accepted {path : String} {r : Record} {paths : List String} {as : List (String × Record)}
    {rs : List String} (h : Accepts files q now path r) (hs : Splits files q now paths as rs) :
    Splits files q now (path :: paths) ((path, r) :: as) rs
  | rejected {path : String} {paths : List String} {as : List (String × Record)}
    {rs : List String} (h : ∀ r, ¬Accepts files q now path r)
    (hs : Splits files q now paths as rs) :
    Splits files q now (path :: paths) as (path :: rs)

theorem Splits.unique {files : Files} {q : Request} {now : Time} {paths : List String}
    {as as' : List (String × Record)} {rs rs' : List String} (h : Splits files q now paths as rs)
    (h' : Splits files q now paths as' rs') : as = as' ∧ rs = rs' := by
  induction h generalizing as' rs' with
  | nil =>
    cases h'
    exact ⟨rfl, rfl⟩
  | accepted hr _ ih =>
    cases h' with
    | accepted hr' hs' =>
      obtain ⟨rfl, rfl⟩ := ih hs'
      exact ⟨by rw [hr.unique hr'], rfl⟩
    | rejected hnone _ => exact absurd hr (hnone _)
  | rejected hnone _ ih =>
    cases h' with
    | accepted hr' _ => exact absurd hr' (hnone _)
    | rejected _ hs' =>
      obtain ⟨rfl, rfl⟩ := ih hs'
      exact ⟨rfl, rfl⟩

/-- What adding the records of some files contributes to a table. -/
def contributionsOf (limit : Nat) (as : List (String × Record)) :
    List RouterKeyTable.Contribution :=
  as.flatMap fun a => (RouterKeyTable.Operation.insertRecord a.2).contributions limit

/-- What is printed of a batch: the lines on each accepted record, then one on each router key in
    the order of the keys, which are in a table of what the accepted records contribute. Each other
    path has one line of its own, and the status says whether there is such a path. -/
structure IsBatch (w : Wording) (files : Files) (q : Request) (now : Time)
    (accepted : List (String × Record)) (rejected : List String) (t : RouterKeyTable)
    (o : Outcome) : Prop where
  splits : Splits files q now q.paths accepted rejected
  table : RouterKeyTable.IsTableOf (contributionsOf q.options.maxAs accepted) t
  output_eq : o.output = (accepted.flatMap fun (path, r) => r.lines path) ++ t.keyLines
  errors : rejected.Forall₂ (Explains w files q now) o.errors
  status_eq : o.status = if rejected = [] then 0 else 1

/-- Nothing of what is printed is left open. -/
theorem IsBatch.unique {w : Wording} {files : Files} {q : Request} {now : Time}
    {accepted accepted' : List (String × Record)} {rejected rejected' : List String}
    {t t' : RouterKeyTable} {o o' : Outcome} (h : IsBatch w files q now accepted rejected t o)
    (h' : IsBatch w files q now accepted' rejected' t' o') : o = o' := by
  obtain ⟨rfl, rfl⟩ := h.splits.unique h'.splits
  have hkeys : t.keyLines = t'.keyLines :=
    RouterKeyTable.keyLines_eq fun k => by rw [h.table.get?_eq h'.table]
  have hlines : Relator.RightUnique (Explains w files q now) := fun _ _ _ hl hl' => hl.unique hl'
  have herrors : o.errors = o'.errors := hlines.forall₂ h.errors h'.errors
  have houtput : o.output = o'.output := by rw [h.output_eq, h'.output_eq, hkeys]
  have hstatus : o.status = o'.status := by rw [h.status_eq, h'.status_eq]
  cases o
  cases o'
  rw [Outcome.mk.injEq]
  exact ⟨hstatus, houtput, herrors⟩

/-- The accepted records with their paths. -/
def Results.accepts (rs : Results) : List (String × Record) :=
  rs.filterMap fun (path, r) => r.toOption.map (path, ·)

namespace Results

theorem reports_eq (rs : Results) :
    rs.reports = rs.accepts.flatMap fun (path, r) => r.lines path := by
  induction rs with
  | nil => rfl
  | cons a rs ih =>
    obtain ⟨path, r⟩ := a
    cases r <;> simpa [reports, accepts, Except.toOption, Record.report_eq_lines] using ih

theorem accepted_eq (rs : Results) : rs.accepted = rs.accepts.map Prod.snd := by
  induction rs with
  | nil => rfl
  | cons a rs ih =>
    obtain ⟨path, r⟩ := a
    cases r <;> simpa [accepted, accepts, Except.toOption] using ih

theorem routerKeys_eq (limit : Nat) (rs : Results) :
    rs.routerKeys limit = RouterKeyTable.run limit (rs.accepts.map fun a => .insertRecord a.2) := by
  rw [routerKeys, accepted_eq, RouterKeyTable.run, List.foldl_map, List.foldl_map]
  rfl

theorem reflects_routerKeys (limit : Nat) (rs : Results) :
    (rs.routerKeys limit).Reflects (contributionsOf limit rs.accepts) := by
  have h := RouterKeyTable.reflects_run limit (rs.accepts.map fun a => .insertRecord a.2)
  rw [List.flatMap_map] at h
  rw [routerKeys_eq]
  exact h

/-- What is printed depends on nothing but the accepted records and their paths. -/
theorem output_outcome (limit : Nat) (rs : Results) :
    (rs.outcome limit).output = (rs.accepts.flatMap fun (path, r) => r.lines path) ++
      (RouterKeyTable.run limit (rs.accepts.map fun a => .insertRecord a.2)).keyLines := by
  rw [outcome, reports_eq, routerKeys_eq, RouterKeyTable.report_eq_keyLines]

/-- The lines on the router keys are the same in whichever order the records come. -/
theorem keyLines_routerKeys_of_perm {limit : Nat} {rs rs' : Results} (h : rs.Perm rs') :
    (rs.routerKeys limit).keyLines = (rs'.routerKeys limit).keyLines := by
  have hperm : (contributionsOf limit rs.accepts).Perm (contributionsOf limit rs'.accepts) :=
    (h.filterMap _).flatMap_right _
  have hkeys := rs.reflects_routerKeys limit
  exact RouterKeyTable.keyLines_eq (hkeys.expires_eq_of_perm (rs'.reflects_routerKeys limit) hperm)

end Results

/-- The results for some paths. -/
def resultsOf (w : Wording) (files : Files) (q : Request) (now : Time) (paths : List String) :
    Results :=
  paths.map fun path => (path, readFile w files q now path)

theorem exists_splits (w : Wording) (files : Files) (q : Request) (now : Time) :
    ∀ paths : List String,
    ∃ rejected, Splits files q now paths (resultsOf w files q now paths).accepts rejected ∧
      rejected.Forall₂ (Explains w files q now) (resultsOf w files q now paths).failures
  | [] => ⟨[], .nil, .nil⟩
  | path :: paths => by
    obtain ⟨rejected, hsplits, hlines⟩ := exists_splits w files q now paths
    cases hread : readFile w files q now path with
    | ok r =>
      refine ⟨rejected, ?_, ?_⟩
      · simpa [resultsOf, Results.accepts, hread, Except.toOption] using
          Splits.accepted (readFile_eq_ok.mp hread) hsplits
      · simpa [resultsOf, Results.failures, hread] using hlines
    | error line =>
      refine ⟨path :: rejected, ?_, ?_⟩
      · have hnone : ∀ r, ¬Accepts files q now path r := fun r h => by
          simp [readFile_eq_ok.mpr h] at hread
        simpa [resultsOf, Results.accepts, hread, Except.toOption] using
          Splits.rejected hnone hsplits
      · simpa [resultsOf, Results.failures, hread] using hlines.cons (readFile_eq_error.mp hread)

theorem isBatch_results (w : Wording) (files : Files) (q : Request) (now : Time) :
    ∃ accepted rejected, IsBatch w files q now accepted rejected
      ((results w files q now).routerKeys q.options.maxAs)
      ((results w files q now).outcome q.options.maxAs) := by
  obtain ⟨rejected, hsplits, hlines⟩ := exists_splits w files q now q.paths
  have hkeys := (results w files q now).reflects_routerKeys q.options.maxAs
  refine ⟨_, rejected, hsplits, hkeys.isTableOf, ?_, hlines, ?_⟩
  · rw [Results.outcome, Results.reports_eq, RouterKeyTable.report_eq_keyLines]
    rfl
  · have hempty : (results w files q now).failures = [] ↔ rejected = [] := by
      rw [← List.length_eq_zero_iff, ← List.length_eq_zero_iff, hlines.length_eq]
      rfl
    simp only [Results.outcome, hempty]

/-! ### Runs -/

/-- What the command does with arguments that ask for something, and what makes no difference. -/
structure RunsAsBatch (w : Wording) (files : Files) (now : Time) (as : List Argument) : Prop where
  batch : ∃ accepted rejected t, IsBatch w files (requestOf files as) now accepted rejected t
    (run w files now (wordsOf as))
  /-- Leaving out some paths without an accepted record changes nothing of what is printed. -/
  prune : ∀ as', Prunes (fun path => ∀ r, ¬Accepts files (requestOf files as) now path r) as as' →
    pathsOf as' ≠ [] →
      (run w files now (wordsOf as')).output = (run w files now (wordsOf as)).output
  /-- Strict mode can be chosen anywhere. -/
  strict : ∀ before after before' after', as = before ++ .strict :: after →
    before' ++ after' = before ++ after →
      run w files now (wordsOf (before' ++ .strict :: after')) = run w files now (wordsOf as)
  /-- The lines on the router keys are the same if the paths come in another order, whatever stands
      between them. -/
  permute : ∀ as', choicesOf as' = choicesOf as → (pathsOf as').Perm (pathsOf as) →
    ∃ accepted rejected t accepted' rejected' t',
      IsBatch w files (requestOf files as) now accepted rejected t (run w files now (wordsOf as)) ∧
      IsBatch w files (requestOf files as') now accepted' rejected' t'
        (run w files now (wordsOf as')) ∧
      t'.keyLines = t.keyLines

section

variable {w : Wording} {files : Files} {now : Time} {as as' : List Argument}

theorem run_wordsOf (h : IsReadable files as) (hpaths : pathsOf as ≠ []) :
    run w files now (wordsOf as) = (results w files (requestOf files as) now).outcome
      (requestOf files as).options.maxAs := by
  rw [run, readArguments_eq h hpaths]

theorem results_of_choicesOf (h : choicesOf as' = choicesOf as) :
    results w files (requestOf files as') now
      = resultsOf w files (requestOf files as) now (pathsOf as') := by
  rw [requestOf_of_choicesOf h]
  rfl

theorem accepts_cons (w : Wording) (files : Files) (q : Request) (now : Time) (path : String)
    (paths : List String) : (resultsOf w files q now (path :: paths)).accepts
      = ((readFile w files q now path).toOption.map (path, ·)).toList ++
        (resultsOf w files q now paths).accepts := by
  rw [resultsOf, List.map_cons, Results.accepts, List.filterMap_cons]
  cases readFile w files q now path <;> rfl

/-- What is left out has no accepted record. -/
theorem Prunes.accepts_eq {q : Request}
    (h : Prunes (fun path => ∀ r, ¬Accepts files q now path r) as as') :
    (resultsOf w files q now (pathsOf as')).accepts =
      (resultsOf w files q now (pathsOf as)).accepts := by
  induction h with
  | nil => rfl
  | @keep as as' a h ih =>
    cases a with
    | strict => exact ih
    | anchor name => exact ih
    | path name isPath =>
      rw [pathsOf_path, pathsOf_path, accepts_cons, accepts_cons, ih]
  | @drop as as' name isPath hname h ih =>
    have hnone : (readFile w files q now name).toOption = none := by
      cases hread : readFile w files q now name with
      | ok r => exact absurd (readFile_eq_ok.mp hread) (hname r)
      | error line => rfl
    rw [ih, pathsOf_path, accepts_cons, hnone]
    rfl

theorem runsAsBatch (h : IsReadable files as) (hpaths : pathsOf as ≠ []) :
    RunsAsBatch w files now as where
  batch := by
    obtain ⟨accepted, rejected, hbatch⟩ := isBatch_results w files (requestOf files as) now
    exact ⟨accepted, rejected, _, run_wordsOf h hpaths ▸ hbatch⟩
  prune as' hprunes hpaths' := by
    have hchoices := hprunes.choicesOf_eq
    have h' := h.of_choicesOf hchoices
    rw [run_wordsOf h hpaths, run_wordsOf h' hpaths', Results.output_outcome,
      Results.output_outcome, results_of_choicesOf hchoices, hprunes.accepts_eq]
    rfl
  strict before after before' after' hbefore happend := by
    subst hbefore
    have h' : IsReadable files (before' ++ .strict :: after') := by
      rwa [isReadable_strict, happend, ← isReadable_strict]
    have hrequest : requestOf files (before' ++ .strict :: after')
        = requestOf files (before ++ .strict :: after) := by
      rw [requestOf_strict, requestOf_strict, happend]
    have hpaths' : pathsOf (before' ++ .strict :: after') ≠ [] := by
      have := congrArg Request.paths hrequest
      exact fun hnil => hpaths (this.symm.trans hnil)
    rw [run_wordsOf h hpaths, run_wordsOf h' hpaths', hrequest]
  permute as' hchoices hperm := by
    have h' := h.of_choicesOf hchoices
    have hpaths' : pathsOf as' ≠ [] := fun hnil => hpaths (hnil ▸ hperm).symm.eq_nil
    have hresults : (results w files (requestOf files as') now).Perm
        (results w files (requestOf files as) now) := by
      rw [results_of_choicesOf hchoices]
      exact hperm.map _
    obtain ⟨accepted, rejected, hbatch⟩ := isBatch_results w files (requestOf files as) now
    obtain ⟨accepted', rejected', hbatch'⟩ := isBatch_results w files (requestOf files as') now
    exact ⟨accepted, rejected, _, accepted', rejected', _, run_wordsOf h hpaths ▸ hbatch,
      run_wordsOf h' hpaths' ▸ hbatch', Results.keyLines_routerKeys_of_perm hresults⟩

end

/-- One bad certificate never affects the others of a batch, whatever the words are that ask for it:
    all words stand for arguments unless the last one lacks what belongs to it. -/
theorem run_batch (w : Wording) (files : Files) (now : Time) :
    (∀ words, ∃ as, words = wordsOf as ∨ words = wordsOf as ++ ["--ta"]) ∧
    ∀ as, IsReadable files as → pathsOf as ≠ [] → RunsAsBatch w files now as :=
  ⟨exists_wordsOf, fun _ => runsAsBatch⟩

/-- A file with the certificate of a router, and one with the key of a trust anchor. -/
def sampleFiles : Files := fun name =>
  if name = "router" then .ok Record.sampleRouter
  else if name = "key" then .ok Record.sampleKey
  else .error .notFound

/-- A file that is missing beside one with the certificate of a router: only the latter is printed,
    with or without the former and in either order. Strict mode may be chosen in front or behind. -/
theorem run_batch_sample :
    let w : Wording := ⟨fun _ _ => "malformed encoding", fun _ _ => ""⟩
    let now := Record.sampleTime
    (∃ r t, Record.ofDer {} Record.sampleRouter = .ok r ∧
      RouterKeyTable.IsTableOf (contributionsOf 200000 [("router", r)]) t ∧
      run w sampleFiles now ["missing", "router"] = ⟨1, r.lines "router" ++ t.keyLines,
        ["missing: Can’t read file: " ++ FileError.notFound.message]⟩) ∧
    (run w sampleFiles now ["router"]).output =
      (run w sampleFiles now ["missing", "router"]).output ∧
    (∃ t t' : RouterKeyTable, t'.keyLines = t.keyLines ∧
      (∃ ls, (run w sampleFiles now ["missing", "router"]).output = ls ++ t.keyLines) ∧
      ∃ ls, (run w sampleFiles now ["router", "missing"]).output = ls ++ t'.keyLines) ∧
    run w sampleFiles now ["--ta", "key", "router", "--strict"]
      = run w sampleFiles now ["--strict", "--ta", "key", "router"] := by
  intro w now
  let missing : Argument := .path "missing" (by decide)
  let router : Argument := .path "router" (by decide)
  obtain ⟨-, hrun⟩ := run_batch w sampleFiles now
  have hbatch : RunsAsBatch w sampleFiles now [missing, router] :=
    hrun _ (by simp [IsReadable, missing, router]) (by simp [pathsOf, missing, Argument.path?])
  have hstrict : RunsAsBatch w sampleFiles now [.strict, .anchor "key", router] :=
    hrun _ (by simp [IsReadable, router, sampleFiles]) (by simp [pathsOf, router, Argument.path?])
  have hmissing : sampleFiles "missing" = .error .notFound := rfl
  refine ⟨?_, ?_, ?_, ?_⟩
  · obtain ⟨r, -, hr, -⟩ := Record.exists_ofDer_sampleRouter
    have haccepts : Accepts sampleFiles {} now "router" r :=
      ⟨Record.sampleRouter, r, rfl, hr, Record.asIssued_of_ofDer_sampleRouter hr⟩
    obtain ⟨accepted, rejected, t, hone⟩ := hbatch.batch
    change IsBatch _ _ _ _ _ _ _ (run w sampleFiles now ["missing", "router"]) at hone
    generalize run w sampleFiles now ["missing", "router"] = o at hone ⊢
    obtain ⟨rfl, rfl⟩ : accepted = [("router", r)] ∧ rejected = ["missing"] :=
      hone.splits.unique (.rejected (not_accepts_of_error hmissing) (.accepted haccepts .nil))
    have herrors : o.errors = ["missing: Can’t read file: " ++ FileError.notFound.message] := by
      obtain ⟨line, _, hline, hnil, herrors⟩ := List.forall₂_cons_left_iff.mp hone.errors
      rw [herrors, List.forall₂_nil_left_iff.mp hnil, hline.unique (.unreadable hmissing)]
      rfl
    have houtput := hone.output_eq
    rw [List.flatMap_singleton] at houtput
    refine ⟨r, t, hr, hone.table, ?_⟩
    have hstatus := hone.status_eq
    obtain ⟨status, output, errors⟩ := o
    rw [Outcome.mk.injEq]
    exact ⟨hstatus, houtput, herrors⟩
  · exact hbatch.prune [router] (.drop (not_accepts_of_error hmissing) (.keep router .nil))
      (by simp [pathsOf, router, Argument.path?])
  · obtain ⟨_, _, t, _, _, t', hone, hother, hlines⟩ :=
      hbatch.permute [router, missing] rfl (List.Perm.swap _ _ _)
    exact ⟨t, t', hlines, ⟨_, hone.output_eq⟩, _, hother.output_eq⟩
  · exact hstrict.strict [] [.anchor "key", router] [.anchor "key", router] [] rfl rfl

/-- All that is printed of the two files. -/
example : (run ⟨fun _ _ => "malformed encoding", fun _ _ => ""⟩ sampleFiles Record.sampleTime
    ["missing", "router"]).output = [
      "router:",
      "  purpose: BGPsec router",
      "  subject key identifier: 0094851E91888E951159299C128AD4708F0BA840",
      "  authority key identifier: 0808080808080808080808080808080808080808",
      "  issuer: rsync://host/module/ca",
      "  CRL: rsync://host/module/ca",
      "  expires: 2025-01-01T00:00:00Z",
      "  router key: MFkwEwYHKoZIzj0CAQYIKoZIzj0DAQcDQgAEAQEBAQEBAQEBAQEBAQEBAQEBAQEBAQEB" ++
        "AQEBAQEBAQEBAQEBAQEBAQEBAQEBAQEBAQEBAQEBAQEBAQEBAQEBAQ==",
      "  AS resources: AS64496, AS4294967294-AS4294967295",
      "router key AS64496 0094851E91888E951159299C128AD4708F0BA840 expires 2025-01-01T00:00:00Z",
      "router key AS4294967294 0094851E91888E951159299C128AD4708F0BA840 " ++
        "expires 2025-01-01T00:00:00Z",
      "router key AS4294967295 0094851E91888E951159299C128AD4708F0BA840 " ++
        "expires 2025-01-01T00:00:00Z"] := by
  decide +kernel

end ResourcePki.CommandLine
