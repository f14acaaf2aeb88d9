import ResourcePki.CommandLine

/-!
What arguments ask for.

Arguments are words for choices and paths: two of the words are those of choices, and the second
choice takes the word behind it, whatever that is. Any words can be understood in this way, except
that the last one may lack what belongs to it (`exists_wordsOf`). Choices and paths are collected
apart from each other, so only three things about arguments count: whether strict mode is among
them, the keys in their order, and the paths in theirs.
-/

namespace ResourcePki.CommandLine

/-- What one argument stands for, or two that belong together. -/
inductive Argument where
  /-- Certificates are decoded in strict mode. -/
  | strict
  /-- Certificates are taken for the trust anchor with the key in a file. -/
  | anchor (name : String)
  /-- There is a certificate in a file. -/
  | path (name : String) (isPath : name ≠ "--strict" ∧ name ≠ "--ta")

namespace Argument

/-- The words of an argument. -/
def words : Argument → List String
  | strict => ["--strict"]
  | anchor name => ["--ta", name]
  | path name _ => [name]

/-- Whether a certificate is named. -/
def isPath : Argument → Bool
  | path _ _ => true
  | _ => false

/-- Whether strict mode is chosen. -/
def isStrict : Argument → Bool
  | strict => true
  | _ => false

/-- The path of a certificate. -/
def path? : Argument → Option String
  | path name _ => some name
  | _ => none

/-- The key of a trust anchor. -/
def key? (files : Files) : Argument → Option Octets
  | anchor name => (files name).toOption
  | _ => none

end Argument

/-- The words of some arguments. -/
def wordsOf (as : List Argument) : List String :=
  as.flatMap (·.words)

/-- The paths among some arguments. -/
def pathsOf (as : List Argument) : List String :=
  as.filterMap (·.path?)

theorem pathsOf_path (name : String) (isPath : name ≠ "--strict" ∧ name ≠ "--ta")
    (as : List Argument) : pathsOf (.path name isPath :: as) = name :: pathsOf as :=
  rfl

/-- The keys that some arguments give. -/
def keysOf (files : Files) (as : List Argument) : List Octets :=
  as.filterMap (·.key? files)

/-- Every key of some arguments can be read. -/
def IsReadable (files : Files) (as : List Argument) : Prop :=
  ∀ name, .anchor name ∈ as → ∃ key, files name = .ok key

/-- What some arguments ask for. The last key counts. -/
def requestOf (files : Files) (as : List Argument) : Request where
  options := { strict := as.any (·.isStrict) }
  anchorKey := (keysOf files as).getLast?
  paths := pathsOf as

/-- The arguments that hold for all certificates. -/
def choicesOf (as : List Argument) : List Argument :=
  as.filter fun a => !a.isPath

/-- Some paths that have a property are left out of arguments. -/
inductive Prunes (p : String → Prop) : List Argument → List Argument → Prop where
  | nil : Prunes p [] []
  | keep {as as' : List Argument} (a : Argument) (h : Prunes p as as') :
    Prunes p (a :: as) (a :: as')
  | drop {as as' : List Argument} {name : String} {isPath : name ≠ "--strict" ∧ name ≠ "--ta"}
    (hname : p name) (h : Prunes p as as') : Prunes p (.path name isPath :: as) as'

/-! ### Words -/

/-- All words stand for arguments, unless the last one lacks what belongs to it. -/
theorem exists_wordsOf : ∀ words : List String,
    ∃ as, words = wordsOf as ∨ words = wordsOf as ++ ["--ta"]
  | [] => ⟨[], .inl rfl⟩
  | word :: words => by
    have hcons : ∀ (a : Argument) (rest : List String),
        (∃ as, rest = wordsOf as ∨ rest = wordsOf as ++ ["--ta"]) →
        ∃ as, a.words ++ rest = wordsOf as ∨ a.words ++ rest = wordsOf as ++ ["--ta"] :=
      fun a rest ⟨as, h⟩ => ⟨a :: as, by simpa [wordsOf] using h⟩
    by_cases hta : word = "--ta"
    · subst hta
      cases words with
      | nil => exact ⟨[], .inr rfl⟩
      | cons name words => exact hcons (.anchor name) words (exists_wordsOf words)
    · by_cases hstrict : word = "--strict"
      · subst hstrict
        exact hcons .strict words (exists_wordsOf words)
      · exact hcons (.path word ⟨hstrict, hta⟩) words (exists_wordsOf words)

/-! ### Reading -/

section

variable {files : Files} {q : Request} {words : List String} {name : String}

theorem readArguments_strict : readArguments files q ("--strict" :: words)
    = readArguments files { q with options := { q.options with strict := true } } words := by
  rw [readArguments.eq_def]
  rfl

theorem readArguments_anchor {key : Octets} (hkey : files name = .ok key) :
    readArguments files q ("--ta" :: name :: words)
      = readArguments files { q with anchorKey := some key } words := by
  rw [readArguments, if_neg (by decide), if_pos rfl, hkey]

theorem readArguments_path (h : name ≠ "--strict" ∧ name ≠ "--ta") :
    readArguments files q (name :: words)
      = readArguments files { q with paths := q.paths ++ [name] } words := by
  rw [readArguments.eq_def]
  simp [h]

end

/-- Arguments are read one after the other, and what they ask for is added to what has been asked
    for. A later key takes the place of an earlier one. -/
theorem readArguments_wordsOf {files : Files} {as : List Argument} (h : IsReadable files as)
    (q : Request) :
    readArguments files q (wordsOf as) =
      if q.paths ++ pathsOf as = [] then .error .usage
      else .ok
        { options := { q.options with strict := q.options.strict || as.any (·.isStrict) }
          anchorKey := (keysOf files as).getLast?.or q.anchorKey
          paths := q.paths ++ pathsOf as } := by
  induction as generalizing q with
  | nil => simp [wordsOf, readArguments, pathsOf, keysOf]
  | cons a as ih =>
    have hrest : IsReadable files as := fun name hname => h name (List.mem_cons_of_mem _ hname)
    rw [wordsOf, List.flatMap_cons, ← wordsOf]
    cases a with
    | strict =>
      refine readArguments_strict.trans ((ih hrest _).trans ?_)
      simp [pathsOf, keysOf, Argument.path?, Argument.key?, Argument.isStrict]
    | anchor name =>
      obtain ⟨key, hkey⟩ := h name List.mem_cons_self
      refine (readArguments_anchor hkey).trans ((ih hrest _).trans ?_)
      have hkeys : keysOf files (.anchor name :: as) = key :: keysOf files as := by
        simp [keysOf, Argument.key?, hkey, Except.toOption]
      have hlast : (keysOf files (.anchor name :: as)).getLast?.or q.anchorKey
          = (keysOf files as).getLast?.or (some key) := by
        rw [hkeys, List.getLast?_cons]
        cases (keysOf files as).getLast? <;> rfl
      rw [hlast]
      simp [pathsOf, Argument.path?, Argument.isStrict]
    | path name isPath =>
      refine (readArguments_path isPath).trans ((ih hrest _).trans ?_)
      simp [pathsOf, keysOf, Argument.path?, Argument.key?, Argument.isStrict]

/-- Arguments of which every key can be read ask for something if a path is among them. -/
theorem readArguments_eq {files : Files} {as : List Argument} (h : IsReadable files as)
    (hpaths : pathsOf as ≠ []) : readArguments files {} (wordsOf as) = .ok (requestOf files as) := by
  rw [readArguments_wordsOf h]
  simp [hpaths, requestOf]

/-! ### What counts -/

section

variable {files : Files} {as as' : List Argument}

theorem any_isStrict_choicesOf (as : List Argument) :
    (choicesOf as).any (·.isStrict) = as.any (·.isStrict) := by
  rw [choicesOf, List.any_filter]
  exact congrArg as.any (funext fun a => by cases a <;> rfl)

theorem keysOf_choicesOf (files : Files) (as : List Argument) :
    keysOf files (choicesOf as) = keysOf files as := by
  rw [keysOf, choicesOf, List.filterMap_filter]
  exact congrArg (List.filterMap · as) (funext fun a => by cases a <;> rfl)

theorem isReadable_choicesOf : IsReadable files (choicesOf as) ↔ IsReadable files as := by
  simp [IsReadable, choicesOf, Argument.isPath]

theorem IsReadable.of_choicesOf (h : IsReadable files as) (hchoices : choicesOf as' = choicesOf as) :
    IsReadable files as' := by
  rwa [← isReadable_choicesOf, hchoices, isReadable_choicesOf]

/-- The same choices among other paths ask for the same of these. -/
theorem requestOf_of_choicesOf (h : choicesOf as' = choicesOf as) :
    requestOf files as' = { requestOf files as with paths := pathsOf as' } := by
  rw [requestOf, requestOf, ← any_isStrict_choicesOf as', ← keysOf_choicesOf files as', h,
    any_isStrict_choicesOf, keysOf_choicesOf]

/-- Wherever strict mode is chosen, the same is asked for. -/
theorem requestOf_strict (before after : List Argument) :
    requestOf files (before ++ .strict :: after)
      = { requestOf files (before ++ after) with options := { strict := true } } := by
  simp [requestOf, keysOf, pathsOf, Argument.isStrict, Argument.key?, Argument.path?]

theorem isReadable_strict {before after : List Argument} :
    IsReadable files (before ++ .strict :: after) ↔ IsReadable files (before ++ after) := by
  simp [IsReadable]

theorem Prunes.choicesOf_eq {p : String → Prop} (h : Prunes p as as') :
    choicesOf as' = choicesOf as := by
  induction h with
  | nil => rfl
  | keep a h ih => simp only [choicesOf, List.filter_cons] at ih ⊢; rw [ih]
  | drop hname h ih => simpa [choicesOf, Argument.isPath] using ih

end

end ResourcePki.CommandLine
