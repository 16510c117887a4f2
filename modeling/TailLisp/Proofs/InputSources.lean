import Mathlib.Data.List.Basic
import TailLisp.CommandLine

namespace TailLisp

/-!
The sources among the arguments.

A command reads one source.  A lone dash names standard input, and every
argument that does not begin with a dash names a file; the empty name stands for
standard input too.  Beside sources the arguments considered here hold the
letters for data, outlines and information, and nothing else.

Reading the arguments remembers a dash by a flag and a file by its name.  The
empty name leaves no trace in either, so a source behind it is not noticed as a
second one.  `request_refuses_sources` says what is noticed: a source that is
not the last one, unless it is the empty name.  Where no name is empty this is
every second source, and the order of the arguments does not matter.
-/

namespace CommandLine

/-! ## Kinds of arguments -/

/-- The argument that asks for standard input. -/
def loneDash : Bytes :=
  Bytes.ofText "-"

/-- Whether an argument is the name of a file. -/
def isFileName (argument : Bytes) : Bool :=
  argument.head? != some '-'.toUInt8

/-- Whether an argument names a source. -/
def isSource (argument : Bytes) : Bool :=
  argument == loneDash || isFileName argument

/-- Whether an argument names a source or is one of the letters that ask for
data, outlines and information. -/
def isPlain (argument : Bytes) : Bool :=
  isSource argument || argument == Bytes.ofText "-d" || argument == Bytes.ofText "-t" ||
    argument == Bytes.ofText "-v"

/-- The arguments that name a source. -/
def sources (arguments : List Bytes) : List Bytes :=
  arguments.filter isSource

theorem isSource_of_isFileName {argument : Bytes} (named : isFileName argument = true) :
    isSource argument = true := by
  rw [isSource, named, Bool.or_true]

/-- A file name is no text that begins with a dash. -/
theorem beq_eq_false_of_isFileName {argument : Bytes} (named : isFileName argument = true)
    (text : Bytes) (dashed : isFileName text = false) : (argument == text) = false := by
  rw [beq_eq_false_iff_ne]
  rintro rfl
  rw [named] at dashed
  cases dashed

theorem sources_cons (argument : Bytes) (arguments : List Bytes) :
    sources (argument :: arguments) =
      if isSource argument then argument :: sources arguments else sources arguments :=
  List.filter_cons

theorem mem_sources {argument : Bytes} {arguments : List Bytes} :
    argument ∈ sources arguments ↔ argument ∈ arguments ∧ isSource argument = true :=
  List.mem_filter

/-! ## One argument -/

namespace Options

/-- The options with what one argument adds to them. -/
def after (options : Options) (argument : Bytes) : Options :=
  { file := if isFileName argument then argument else options.file
    data := argument == Bytes.ofText "-d" || options.data
    outline := argument == Bytes.ofText "-t" || options.outline
    verbose := argument == Bytes.ofText "-v" || options.verbose }

end Options

/-- A plain argument adds to the options, unless it is a source and one was
noticed before. -/
theorem requestFrom_cons_of_isPlain {argument : Bytes} (plain : isPlain argument = true)
    (options : Options) (dash : Bool) (arguments : List Bytes) :
    requestFrom options dash (argument :: arguments) =
      if isSource argument && (dash || !options.file.isEmpty) then .refuse .multipleSources
      else requestFrom (options.after argument) (argument == loneDash || dash) arguments := by
  simp only [isPlain, isSource, Bool.or_eq_true, beq_iff_eq] at plain
  rcases plain with (((isDash | named) | isData) | isOutline) | isVerbose
  · rw [isDash]
    rfl
  · have noDash : argument.head? ≠ some '-'.toUInt8 := bne_iff_ne.1 named
    simp only [requestFrom, if_neg noDash, isSource_of_isFileName named, Bool.true_and,
      beq_eq_false_of_isFileName named loneDash rfl, Bool.false_or, Options.after,
      if_pos named, beq_eq_false_of_isFileName named (Bytes.ofText "-d") rfl,
      beq_eq_false_of_isFileName named (Bytes.ofText "-t") rfl,
      beq_eq_false_of_isFileName named (Bytes.ofText "-v") rfl]
  · rw [isData]
    rfl
  · rw [isOutline]
    rfl
  · rw [isVerbose]
    rfl

/-- After a source that was not refused, a source counts as noticed unless the
name was empty. -/
theorem noticed_after {argument : Bytes} (source : isSource argument = true) {options : Options}
    {dash : Bool} (unnoticed : (dash || !options.file.isEmpty) = false) :
    ((argument == loneDash || dash) || !(options.after argument).file.isEmpty) =
      !argument.isEmpty := by
  rw [Bool.or_eq_false_iff] at unnoticed
  rcases unnoticed with ⟨noDash, noFile⟩
  simp only [isSource, Bool.or_eq_true, beq_iff_eq] at source
  rcases source with isDash | named
  · rw [isDash]
    rfl
  · rw [beq_eq_false_of_isFileName named loneDash rfl, noDash, Options.after,
      if_pos named]
    rfl

/-- A letter leaves the file as it is. -/
theorem file_after_of_not_isSource {argument : Bytes} (noSource : isSource argument = false)
    (options : Options) (dash : Bool) :
    ((argument == loneDash || dash) || !(options.after argument).file.isEmpty) =
      (dash || !options.file.isEmpty) := by
  rw [isSource, Bool.or_eq_false_iff] at noSource
  rw [noSource.1, Options.after, noSource.2]
  rfl

/-! ## All arguments -/

/-- Whether a further source comes while one is noticed.  Of the sources before
it, only the empty name is not noticed. -/
def crowded : Bool -> List Bytes -> Bool
  | _, [] => false
  | noticed, source :: sources => noticed || crowded (!source.isEmpty) sources

theorem crowded_iff {noticed : Bool} {sources : List Bytes} :
    crowded noticed sources = true ↔
      noticed = true ∧ sources ≠ [] ∨
        Exists fun source => source ∈ sources.dropLast ∧ source ≠ [] := by
  induction sources generalizing noticed with
  | nil => simp [crowded]
  | cons source sources inductionHypothesis =>
      rw [crowded, Bool.or_eq_true, inductionHypothesis]
      cases sources with
      | nil => simp
      | cons next sources => simp [List.dropLast_cons_cons]

/-- Plain arguments are refused if they are crowded, and otherwise each adds to
the options. -/
theorem requestFrom_of_isPlain {arguments : List Bytes}
    (plain : forall argument, argument ∈ arguments -> isPlain argument = true)
    (options : Options) (dash : Bool) :
    requestFrom options dash arguments =
      if crowded (dash || !options.file.isEmpty) (sources arguments) then
        .refuse .multipleSources
      else .run (arguments.foldl Options.after options) := by
  induction arguments generalizing options dash with
  | nil => rfl
  | cons argument arguments inductionHypothesis =>
      rcases List.forall_mem_cons.1 plain with ⟨first, others⟩
      rw [requestFrom_cons_of_isPlain first, inductionHypothesis others, List.foldl_cons,
        sources_cons]
      cases source : isSource argument with
      | false =>
          rw [file_after_of_not_isSource source]
          rfl
      | true =>
          cases noticed : dash || !options.file.isEmpty with
          | true => rfl
          | false =>
              rw [noticed_after source noticed]
              rfl

/-! ## Arguments that are accepted -/

/-- A letter is heeded wherever it stands. -/
theorem asked_foldl_after {asked : Options -> Bool} {letter : Bytes}
    (adds : forall options argument,
      asked (Options.after options argument) = (argument == letter || asked options))
    (arguments : List Bytes) (options : Options) :
    asked (arguments.foldl Options.after options) = true ↔
      letter ∈ arguments ∨ asked options = true := by
  induction arguments generalizing options with
  | nil => simp
  | cons argument arguments inductionHypothesis =>
      rw [List.foldl_cons, inductionHypothesis, adds, Bool.or_eq_true, beq_iff_eq, List.mem_cons,
        eq_comm (a := argument)]
      tauto

/-- The last file name is the file. -/
theorem file_foldl_after (arguments : List Bytes) (options : Options) :
    (arguments.foldl Options.after options).file =
      (arguments.filter isFileName).getLast?.getD options.file := by
  induction arguments generalizing options with
  | nil => rfl
  | cons argument arguments inductionHypothesis =>
      rw [List.foldl_cons, inductionHypothesis, List.filter_cons, Options.after]
      cases isFileName argument with
      | false => rfl
      | true => rw [if_pos rfl, if_pos rfl, List.getLast?_cons, Option.getD_some]

theorem filter_isFileName_sources (arguments : List Bytes) :
    (sources arguments).filter isFileName = arguments.filter isFileName := by
  rw [sources, List.filter_filter]
  apply List.filter_congr
  intro argument _
  cases named : isFileName argument with
  | false => rfl
  | true => exact isSource_of_isFileName named

/-- Of arguments that are not crowded, the name that is not empty is the file. -/
theorem file_eq_iff {arguments : List Bytes}
    (accepted : ¬ Exists fun source => source ∈ (sources arguments).dropLast ∧ source ≠ [])
    {name : Bytes} (nonempty : name ≠ []) :
    (arguments.foldl Options.after .default).file = name ↔
      name ∈ arguments ∧ isFileName name = true := by
  rw [file_foldl_after]
  constructor
  · intro isFile
    cases last : (arguments.filter isFileName).getLast? with
    | none =>
        rw [last] at isFile
        exact absurd isFile.symm nonempty
    | some given =>
        rw [last, Option.getD_some] at isFile
        rw [← isFile]
        exact List.mem_filter.1 (List.mem_of_getLast? last)
  · rintro ⟨given, named⟩
    have source := mem_sources.2 ⟨given, isSource_of_isFileName named⟩
    -- Every source but the last one is the empty name, so this one is the last.
    rcases List.eq_nil_or_concat' (sources arguments) with nothing | ⟨earlier, last, same⟩
    · rw [nothing] at source
      cases source
    · rw [same, List.dropLast_concat] at accepted
      rw [same, List.mem_append, List.mem_singleton] at source
      rcases source with isEarlier | isLast
      · exact absurd ⟨name, isEarlier, nonempty⟩ accepted
      · rw [← filter_isFileName_sources, same, ← isLast, List.filter_append, List.filter_cons,
          if_pos named, List.filter_nil, List.getLast?_concat, Option.getD_some]

/-- Options are the same if they ask for the same and have the same file. -/
theorem Options.eq_of_fields {left right : Options}
    (files : forall name, name ≠ [] -> (left.file = name ↔ right.file = name))
    (data : left.data = true ↔ right.data = true)
    (outline : left.outline = true ↔ right.outline = true)
    (verbose : left.verbose = true ↔ right.verbose = true) : left = right := by
  have sameFile : left.file = right.file := by
    by_cases nothing : right.file = []
    · by_contra different
      rw [nothing] at different
      have also := (files left.file different).1 rfl
      exact different (also.symm.trans nothing)
    · exact (files right.file nothing).2 rfl
  rw [Bool.eq_iff_iff.symm] at data outline verbose
  cases left
  cases right
  simp_all

/-! ## At most one source -/

/-- What plain arguments amount to. -/
theorem request_of_isPlain {arguments : List Bytes}
    (plain : forall argument, argument ∈ arguments -> isPlain argument = true) :
    request arguments =
      if crowded false (sources arguments) then .refuse .multipleSources
      else .run (arguments.foldl Options.after .default) :=
  requestFrom_of_isPlain plain .default false

theorem refused_iff_noticed {arguments : List Bytes}
    (plain : forall argument, argument ∈ arguments -> isPlain argument = true) :
    request arguments = .refuse .multipleSources ↔
      Exists fun source => source ∈ (sources arguments).dropLast ∧ source ≠ [] := by
  have noticed := @crowded_iff false (sources arguments)
  rw [request_of_isPlain plain]
  cases crowd : crowded false (sources arguments) <;> rw [crowd] at noticed <;>
    simpa using noticed

/-- Without empty names, every second source is refused. -/
theorem refused_iff_two_le {arguments : List Bytes}
    (plain : forall argument, argument ∈ arguments -> isPlain argument = true)
    (named : [] ∉ arguments) :
    request arguments = .refuse .multipleSources ↔ 2 <= (sources arguments).length := by
  rw [refused_iff_noticed plain]
  have positive : 2 <= (sources arguments).length ↔ 0 < (sources arguments).dropLast.length := by
    rw [List.length_dropLast]
    omega
  rw [positive, List.length_pos_iff_exists_mem]
  constructor
  · rintro ⟨source, member, _⟩
    exact ⟨source, member⟩
  · rintro ⟨source, member⟩
    refine ⟨source, member, ?_⟩
    rintro rfl
    exact named (mem_sources.1 (List.dropLast_subset _ member)).1

/-- Plain arguments that are not refused ask for what their letters say, and for
the file that has a name. -/
theorem exists_run_of_not_refused {arguments : List Bytes}
    (plain : forall argument, argument ∈ arguments -> isPlain argument = true)
    (accepted : request arguments ≠ .refuse .multipleSources) :
    Exists fun options => request arguments = .run options ∧
      (options.data = true ↔ Bytes.ofText "-d" ∈ arguments) ∧
      (options.outline = true ↔ Bytes.ofText "-t" ∈ arguments) ∧
      (options.verbose = true ↔ Bytes.ofText "-v" ∈ arguments) ∧
      forall name, name ≠ [] ->
        (options.file = name ↔ name ∈ arguments ∧ isFileName name = true) := by
  have alone := mt (refused_iff_noticed plain).2 accepted
  have asked {field : Options -> Bool} {letter : Bytes} (absent : field .default = false)
      (adds : forall options argument,
        field (Options.after options argument) = (argument == letter || field options)) :
      field (arguments.foldl Options.after .default) = true ↔ letter ∈ arguments := by
    rw [asked_foldl_after adds, absent, or_iff_left Bool.false_ne_true]
  refine ⟨arguments.foldl Options.after .default, ?_, asked rfl fun _ _ => rfl,
    asked rfl fun _ _ => rfl, asked rfl fun _ _ => rfl, fun name => file_eq_iff alone⟩
  rw [request_of_isPlain plain] at accepted ⊢
  split at accepted
  · exact absurd rfl accepted
  · next free => rw [if_neg free]

/-- Without empty names, the order of the arguments does not matter. -/
theorem request_eq_of_perm {arguments others : List Bytes} (reordered : others.Perm arguments)
    (plain : forall argument, argument ∈ arguments -> isPlain argument = true)
    (named : [] ∉ arguments) : request others = request arguments := by
  have alsoPlain : forall argument, argument ∈ others -> isPlain argument = true :=
    fun argument member => plain argument (reordered.mem_iff.1 member)
  have alsoNamed : [] ∉ others := mt reordered.mem_iff.1 named
  have sameSources : (sources others).length = (sources arguments).length :=
    (reordered.filter isSource).length_eq
  by_cases refused : request arguments = .refuse .multipleSources
  · rw [refused, refused_iff_two_le alsoPlain alsoNamed, sameSources]
    exact (refused_iff_two_le plain named).1 refused
  · have alsoAccepted : request others ≠ .refuse .multipleSources := by
      rw [Ne, refused_iff_two_le alsoPlain alsoNamed, sameSources]
      exact mt (refused_iff_two_le plain named).2 refused
    rcases exists_run_of_not_refused plain refused with
      ⟨options, run, data, outline, verbose, file⟩
    rcases exists_run_of_not_refused alsoPlain alsoAccepted with
      ⟨other, otherRun, otherData, otherOutline, otherVerbose, otherFile⟩
    have same : other = options := by
      apply Options.eq_of_fields
      · intro name nonempty
        rw [file name nonempty, otherFile name nonempty, reordered.mem_iff]
      · rw [data, otherData, reordered.mem_iff]
      · rw [outline, otherOutline, reordered.mem_iff]
      · rw [verbose, otherVerbose, reordered.mem_iff]
    rw [run, otherRun, same]

/-- When arguments are refused for their sources.  A source is noticed unless it
is the empty name, so the arguments are refused exactly if a source that is not
the last one has a name, or is a dash.  Only two sources can be refused, and
where no name is empty they always are, in whatever order the arguments stand.
What is not refused asks for what its letters say, and reads the file that was
named. -/
theorem request_refuses_sources {arguments : List Bytes}
    (plain : forall argument, argument ∈ arguments -> isPlain argument = true) :
    (request arguments = .refuse .multipleSources ↔
      Exists fun source => source ∈ (sources arguments).dropLast ∧ source ≠ []) ∧
    (request arguments = .refuse .multipleSources -> 2 <= (sources arguments).length) ∧
    ([] ∉ arguments ->
      (request arguments = .refuse .multipleSources ↔ 2 <= (sources arguments).length) ∧
        forall others : List Bytes, others.Perm arguments -> request others = request arguments) ∧
    (request arguments ≠ .refuse .multipleSources ->
      Exists fun options => request arguments = .run options ∧
        (options.data = true ↔ Bytes.ofText "-d" ∈ arguments) ∧
        (options.outline = true ↔ Bytes.ofText "-t" ∈ arguments) ∧
        (options.verbose = true ↔ Bytes.ofText "-v" ∈ arguments) ∧
        forall name, name ≠ [] ->
          (options.file = name ↔ name ∈ arguments ∧ isFileName name = true)) := by
  refine ⟨refused_iff_noticed plain, ?_, ?_, exists_run_of_not_refused plain⟩
  · intro refused
    rcases (refused_iff_noticed plain).1 refused with ⟨source, member, _⟩
    have positive := List.length_pos_of_mem member
    rw [List.length_dropLast] at positive
    omega
  · intro named
    exact ⟨refused_iff_two_le plain named,
      fun others reordered => request_eq_of_perm reordered plain named⟩

/-- A file between two letters, and the same arguments in another order. -/
theorem request_refuses_sources_reordered :
    let arguments := [Bytes.ofText "-d", Bytes.ofText "f", Bytes.ofText "-v"]
    let others := [Bytes.ofText "f", Bytes.ofText "-v", Bytes.ofText "-d"]
    (forall argument, argument ∈ arguments -> isPlain argument = true) ∧ [] ∉ arguments ∧
      (Exists fun options => request arguments = .run options ∧
        options.file = Bytes.ofText "f" ∧ options.data = true) ∧
      request others = request arguments := by
  intro arguments others
  have plain : forall argument, argument ∈ arguments -> isPlain argument = true := by decide
  have named : [] ∉ arguments := by decide
  rcases request_refuses_sources plain with ⟨_, _, ofNames, ofAccepted⟩
  have accepted : request arguments ≠ .refuse .multipleSources := by
    rw [Ne, (ofNames named).1]
    decide
  rcases ofAccepted accepted with ⟨options, run, data, _, _, file⟩
  refine ⟨plain, named, ⟨options, run, ?_, ?_⟩, ?_⟩
  · exact (file _ (by decide)).2 (by decide)
  · exact data.2 (by decide)
  · exact (ofNames named).2 others (by decide)

/-- Two sources of which the first is the empty name are not refused.  In the
other order they are. -/
theorem empty_name_not_noticed :
    let arguments := [[], Bytes.ofText "f"]
    (forall argument, argument ∈ arguments -> isPlain argument = true) ∧
      (sources arguments).length = 2 ∧
      request arguments = .run { Options.default with file := Bytes.ofText "f" } ∧
      arguments.reverse.Perm arguments ∧
      request arguments.reverse = .refuse .multipleSources := by
  intro arguments
  exact ⟨by decide, by decide, rfl, arguments.reverse_perm, rfl⟩

end CommandLine

end TailLisp
