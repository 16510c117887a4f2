import TailLisp.Proofs.Acceptance

namespace TailLisp

/-!
The order in which names arrive.

Reading a program leaves the symbol table with its old names and, behind them,
the new names of the program.  Each of them stands there once, and they come in
the order in which the forms have them, which is `Node.symbols`: a binding's
name behind its value, parameters before the body, and the name of a lambda not
at all.

A program that is refused may have added names before the fault was found.
Those are never made up.  A name enters the table with the token that spells it,
or it waits in an unfinished binding until the binding is closed.  So at every
step the names that have arrived and those that are waiting were spelled by the
tokens taken so far.
-/

open Grammar

/-! ## Tables -/

namespace SymbolTable

/-- Adding names appends those that are new, each once and in the order of
their first occurrences. -/
theorem names_insertAll (table : SymbolTable) (names : List Bytes) :
    (table.insertAll names).names =
      table.names ++ (names.filter fun name => name ∉ table.names).eraseDups := by
  induction names generalizing table with
  | nil => exact (List.append_nil _).symm
  | cons name names inductionHypothesis =>
      change ((table.insert name).insertAll names).names = _
      by_cases held : name ∈ table.names
      · rw [insert_of_held held, inductionHypothesis, List.filter_cons_of_neg (by simpa using held)]
      · rw [inductionHypothesis, names_insert_of_not_held held,
          List.filter_cons_of_pos (by simpa using held), List.eraseDups_cons, List.filter_filter,
          List.append_assoc, List.singleton_append]
        congr 3
        apply List.filter_congr
        intro other _
        by_cases same : other = name <;> simp [same]

end SymbolTable

/-- Names that a ready table has to learn are those of named references. -/
theorem Reference.filter_spelling {table : SymbolTable} (ready : table.ready = true)
    (references : List Reference) :
    (references.map spelling).filter (fun name => name ∉ table.names) =
      (references.filterMap arriving?).filter fun name => name ∉ table.names := by
  induction references with
  | nil => rfl
  | cons reference references inductionHypothesis =>
      cases reference with
      | named name =>
          have arrives : arriving? (named name) = some name := rfl
          rw [List.map_cons, List.filterMap_cons_some arrives, List.filter_cons, List.filter_cons,
            inductionHypothesis]
          rfl
      | reserved form =>
          have held : (reserved form).spelling ∈ table.names := table.reserved ready form
          rw [List.map_cons, List.filterMap_cons_none rfl,
            List.filter_cons_of_neg (by simpa using held), inductionHypothesis]

/-! ## Names on their way -/

namespace Hole

/-- The name that waits in an unfinished form to be interned. -/
def pending : Hole -> List Bytes
  | bound _ name => [name]
  | _ => []

end Hole

namespace State

def pending : State -> List Bytes
  | operand hole _ => hole.pending
  | bindingEnd _ name _ => [name]
  | _ => []

end State

namespace Filled

def pending : Filled -> List Bytes
  | waiting state => state.pending
  | complete _ => []

end Filled

namespace Action

def pending : Action -> List Bytes
  | settle filled => filled.pending
  | enter hole state => state.pending ++ hole.pending

end Action

namespace Progress

/-- The names that wait anywhere in a reading. -/
def pending : Progress -> List Bytes
  | reading state around => state.pending ++ around.flatMap Hole.pending
  | finished _ => []

end Progress

/-- Filling a hole keeps the name that waits in it. -/
theorem Hole.pending_fill (hole : Hole) (tree : Tree) :
    (hole.fill tree).pending = hole.pending := by
  cases hole with
  | ticked inCode pos => cases inCode <;> rfl
  | _ => rfl

theorem Filled.pending_settle (filled : Filled) (around : List Hole) :
    (filled.settle around).pending = filled.pending ++ around.flatMap Hole.pending := by
  induction around generalizing filled with
  | nil => cases filled <;> rfl
  | cons hole around inductionHypothesis =>
      cases filled with
      | waiting state => rfl
      | complete tree =>
          rw [settle, inductionHypothesis, hole.pending_fill, List.flatMap_cons]
          rfl

theorem Action.pending_apply (action : Action) (around : List Hole) :
    (action.apply around).pending = action.pending ++ around.flatMap Hole.pending := by
  cases action with
  | settle filled => exact filled.pending_settle around
  | enter hole state =>
      rw [apply, Progress.pending, List.flatMap_cons, ← List.append_assoc]
      rfl

/-- The names that a step interns or leaves waiting. -/
def Step.arriving (step : Step) : List Bytes :=
  step.interned.toList ++ step.action.pending

theorem Hole.arriving_receive {hole : Hole} {token : Token} {step : Step}
    (received : hole.receive token = .ok step) :
    step.arriving ⊆ token.lexeme.name?.toList ++ hole.pending := by
  have atom (tree : Tree) : (hole.fillAtom tree).arriving = hole.pending :=
    hole.pending_fill tree
  have symbol (pos : Position) (name : Bytes) :
      (hole.fillSymbol pos name).arriving = name :: hole.pending :=
    congrArg (name :: ·) (hole.pending_fill _)
  rcases token with ⟨pos, lexeme⟩
  cases lexeme with
  | opening =>
      cases received
      exact List.Subset.refl _
  | tick =>
      cases received
      exact List.Subset.refl _
  | closing => cases received
  | dot => cases received
  | integer value =>
      cases received
      rw [atom]
      exact List.subset_append_right _ _
  | char value =>
      cases received
      rw [atom]
      exact List.subset_append_right _ _
  | string raw =>
      simp only [receive] at received
      split at received
      · cases received
        rw [atom]
        exact List.subset_append_right _ _
      · cases received
  | symbol name =>
      cases received
      rw [symbol]
      exact List.Subset.refl _
  | word keyword =>
      cases keyword with
      | truth value =>
          cases received
          rw [atom]
          exact List.subset_append_right _ _
      | head form =>
          cases received
          rw [symbol]
          exact List.Subset.refl _

/-- Nothing waits among the expressions of a series. -/
theorem Series.arriving_step {series : Series} {token : Token} {step : Step}
    (stepped : series.step token = .ok step) :
    step.arriving ⊆ token.lexeme.name?.toList := by
  have further (goes : (series.goOn.bind fun series => (Hole.item series).receive token) =
      .ok step) : step.arriving ⊆ token.lexeme.name?.toList := by
    cases gone : series.goOn with
    | error fault =>
        rw [gone] at goes
        cases goes
    | ok next =>
        rw [gone] at goes
        have received : step.arriving ⊆ token.lexeme.name?.toList ++ [] :=
          Hole.arriving_receive goes
        rwa [List.append_nil] at received
  simp only [Series.step] at stepped
  split at stepped
  · cases closed : series.close with
    | error fault =>
        rw [closed] at stepped
        cases stepped
    | ok tree =>
        rw [closed] at stepped
        cases stepped
        exact List.nil_subset _
  · split at stepped
    · cases stepped
    · cases stepped
      exact List.nil_subset _
    · exact further stepped
  · exact further stepped

theorem SpecialForm.pending_enter {form : SpecialForm} {pos : Position} {tail : Bool}
    {state : State} (entered : form.enter pos tail = .ok state) : state.pending = [] := by
  cases form with
  | recur =>
      cases tail with
      | true =>
          cases entered
          rfl
      | false => cases entered
  | _ =>
      cases entered
      rfl

/-- What arrives with a token was spelled by it or has been waiting. -/
theorem State.arriving_step {state : State} {token : Token} {step : Step}
    (stepped : state.step token = .ok step) :
    step.arriving ⊆ token.lexeme.name?.toList ++ state.pending := by
  cases state with
  | operand hole ifClosed =>
      simp only [State.step] at stepped
      split at stepped
      · cases stepped
      · exact Hole.arriving_receive stepped
  | series items =>
      exact List.subset_append_of_subset_left _ (Series.arriving_step stepped)
  | opened slot pos =>
      simp only [State.step] at stepped
      split at stepped
      · next _ _ tail form _ =>
          cases entered : form.enter pos tail with
          | error fault =>
              rw [entered] at stepped
              cases stepped
          | ok inner =>
              rw [entered] at stepped
              cases stepped
              change inner.pending ⊆ _
              rw [SpecialForm.pending_enter entered]
              exact List.nil_subset _
      · exact List.subset_append_of_subset_left _ (Series.arriving_step stepped)
  | definition pos =>
      simp only [State.step] at stepped
      split at stepped
      · next name spelled =>
          cases stepped
          rw [spelled]
          exact List.Subset.refl _
      · cases stepped
  | bindings head =>
      simp only [State.step] at stepped
      split at stepped
      · cases stepped
        exact List.nil_subset _
      · cases stepped
        exact List.nil_subset _
      · cases stepped
  | bindingName head =>
      simp only [State.step] at stepped
      split at stepped
      · next name same =>
          cases stepped
          rw [same]
          exact List.Subset.refl _
      · cases stepped
  | bindingEnd head name value =>
      simp only [State.step] at stepped
      split at stepped
      · cases stepped
        exact List.subset_append_right _ _
      · cases stepped
  | lambdaHead pos =>
      simp only [State.step] at stepped
      split at stepped
      · cases stepped
        exact List.nil_subset _
      · split at stepped
        · cases stepped
          exact List.nil_subset _
        · cases stepped
  | parameters pos name params =>
      simp only [State.step] at stepped
      split at stepped
      · cases stepped
        exact List.nil_subset _
      · next param same =>
          split at stepped
          · cases stepped
          · cases stepped
            rw [same]
            exact List.Subset.refl _
      · cases stepped
  | _ =>
      simp only [State.step] at stepped
      split at stepped
      · cases stepped
        exact List.nil_subset _
      · cases stepped

/-! ## Names of a reading -/

namespace Reader

/-- The names that tokens spell. -/
def spelled (tokens : List Token) : List Bytes :=
  tokens.filterMap fun token => token.lexeme.name?

theorem spelled_cons (token : Token) (tokens : List Token) :
    spelled (token :: tokens) = token.lexeme.name?.toList ++ spelled tokens := by
  rw [spelled, List.filterMap_cons]
  cases token.lexeme.name? <;> rfl

theorem spelled_append (tokens later : List Token) :
    spelled (tokens ++ later) = spelled tokens ++ spelled later :=
  List.filterMap_append

/-- The names of a reading were waiting before it or are spelled by the tokens
that it takes.  A reading that succeeds stops behind these tokens; one that
fails has also looked at what comes next. -/
theorem exists_spelled_of_resume (state : State) (around : List Hole) (cursor : Cursor) :
    Exists fun tokens => Exists fun ending => cursor.Scans tokens ending ∧
      (resume state around cursor).names ⊆
        spelled tokens ++ (Progress.reading state around).pending ∧
      (resume state around cursor).cursor =
        match (resume state around cursor).outcome with
        | .ok _ => ending
        | .error _ => ending.next.2 := by
  fun_induction resume state around cursor with
  | case1 state around cursor pos after found =>
      exact ⟨[], cursor, .nil _, List.nil_subset _, by rw [found]⟩
  | case2 state around cursor pos error after found =>
      exact ⟨[], cursor, .nil _, List.nil_subset _, by rw [found]⟩
  | case3 state around cursor token after found fault stepped =>
      exact ⟨[], cursor, .nil _, List.nil_subset _, by rw [found]⟩
  | case4 state around cursor token after found step stepped tree applied =>
      refine ⟨[token], after, .cons found (.nil _), ?_, rfl⟩
      intro name interned
      have arrives := State.arriving_step stepped (List.mem_append_left _ interned)
      rw [spelled_cons, Progress.pending]
      simp only [List.mem_append] at arrives ⊢
      exact arrives.imp .inl .inl
  | case5 state around cursor token after found step stepped next outer applied later
      inductionHypothesis =>
      rcases inductionHypothesis with ⟨tokens, ending, scanned, names, stops⟩
      refine ⟨token :: tokens, ending, .cons found scanned, ?_, stops⟩
      have waiting := step.action.pending_apply around
      rw [applied] at waiting
      rw [waiting] at names
      intro name member
      have arrives := @State.arriving_step state token step stepped name
      have laterArrives := @names name
      rw [spelled_cons, Progress.pending]
      simp only [Step.arriving, List.mem_append] at arrives laterArrives member ⊢
      -- A name of the rest is spelled later, or it was waiting behind this step.
      rcases member with interned | inLater
      · exact (arrives (.inl interned)).imp .inl .inl
      · rcases laterArrives inLater with spelledLater | leftWaiting | around
        · exact .inl (.inr spelledLater)
        · exact (arrives (.inr leftWaiting)).imp .inl .inl
        · exact .inr (.inr around)

theorem exists_spelled_of_read (slot : Slot) (cursor : Cursor) :
    Exists fun tokens => Exists fun ending => cursor.Scans tokens ending ∧
      (read slot cursor).names ⊆ spelled tokens ∧
      (read slot cursor).cursor =
        match (read slot cursor).outcome with
        | .ok _ => ending
        | .error _ => ending.next.2 := by
  rcases exists_spelled_of_resume (.start slot) [] cursor with
    ⟨tokens, ending, scanned, names, stops⟩
  -- Nothing waits before an item has begun.
  have nothing : (Progress.reading (.start slot) []).pending = [] := rfl
  rw [nothing, List.append_nil] at names
  exact ⟨tokens, ending, scanned, names, stops⟩

/-- Blank text before the first token makes no difference to what is scanned
and to what is found behind it. -/
theorem exists_scans_of_skipBlank {cursor ending : Cursor} {tokens : List Token}
    (scanned : cursor.skipBlank.Scans tokens ending) :
    Exists fun other => cursor.Scans tokens other ∧ other.next = ending.next := by
  cases tokens with
  | nil =>
      cases scanned
      exact ⟨cursor, .nil _, (Cursor.next_skipBlank cursor).symm⟩
  | cons token tokens =>
      exact ⟨ending, (Cursor.scans_skipBlank (List.cons_ne_nil _ _)).1 scanned, rfl⟩

/-- The names of a text with a fault are spelled by the tokens that were taken
before the fault was found. -/
theorem exists_spelled_of_fault {slot : Slot} {cursor : Cursor} {fault : Fault}
    (failed : (readAll slot cursor).fault = some fault) :
    Exists fun tokens => Exists fun ending => cursor.Scans tokens ending ∧
      (readAll slot cursor).names ⊆ spelled tokens ∧
      (readAll slot cursor).cursor = ending.next.2 := by
  fun_induction readAll slot cursor with
  | case1 cursor first found stopped =>
      rcases exists_spelled_of_read slot cursor with ⟨tokens, ending, scanned, names, stops⟩
      rw [stopped] at stops
      exact ⟨tokens, ending, scanned, names, stops⟩
  | case2 => cases failed
  | case3 cursor first tree done after more later inductionHypothesis =>
      rcases exists_spelled_of_read slot cursor with ⟨tokens, middle, scanned, names, stops⟩
      rw [done] at stops
      rcases inductionHypothesis failed with ⟨others, ending, scannedLater, laterNames, laterStops⟩
      rcases exists_scans_of_skipBlank scannedLater with ⟨last, behind, same⟩
      rw [stops] at behind
      refine ⟨tokens ++ others, last, scanned.append behind, ?_, ?_⟩
      · rw [spelled_append]
        exact List.append_subset.2 ⟨List.subset_append_of_subset_left _ names,
          List.subset_append_of_subset_right _ laterNames⟩
      · rw [same]
        exact laterStops

end Reader

/-! ## Programs -/

namespace SymbolTable

/-- The symbols of a program, by the names that a table has for them, are those
with which its items were written. -/
theorem flatMap_symbols_forms {table : SymbolTable} (ready : table.ready = true)
    (parts : List Passage) :
    let filled := table.insertAll (parts.flatMap fun part => part.tree.names)
    ((parts.map fun part => part.tree.map filled.resolve).flatMap Node.symbols).map filled.nameOf =
      (parts.flatMap fun part => part.tree.symbols).map Reference.spelling := by
  intro filled
  have named := congrArg (List.flatMap Node.symbols) (map_nameOf_forms ready parts)
  simp only [List.flatMap_map, Node.symbols_map] at named ⊢
  rw [List.map_flatMap, List.map_flatMap]
  exact named

/-- What a program that is read adds to the table. -/
theorem names_of_parseForms {table : SymbolTable} {text : Bytes}
    {result : Interned (List (Node SymbolId))} {forms : List (Node SymbolId)}
    (parsed : table.parseForms text = .ok result) (done : result.outcome = .ok forms) :
    result.table.names = table.names ++
      (((forms.flatMap Node.symbols).map result.table.nameOf).filter
        fun name => name ∉ table.names).eraseDups := by
  rcases parts_of_parseForms parsed done with
    ⟨ready, parts, ending, nonempty, items, scanned, ended⟩
  have arrived : (parts.flatMap fun part => part.tree.symbols).filterMap Reference.arriving? =
      parts.flatMap fun part => part.tree.names := by
    rw [List.filterMap_flatMap]
    rfl
  cases parsed.symm.trans (parseForms_of_parts ready nonempty items scanned ended)
  cases done
  rw [flatMap_symbols_forms ready, Reference.filter_spelling ready, arrived]
  exact names_insertAll table _

/-- What a program that is refused adds to the table. -/
theorem names_of_refused {table : SymbolTable} (ready : table.ready = true) {text : Bytes}
    {result : Interned (List (Node SymbolId))} {fault : Fault}
    (parsed : table.parseForms text = .ok result) (failed : result.outcome = .error fault) :
    Exists fun tokens => Exists fun ending => Exists fun added =>
      (Cursor.ofText text).Scans tokens ending ∧
      result.cursor = ending.next.2 ∧
      result.table.names = table.names ++ added ∧
      forall name, name ∈ added -> Exists fun token => token ∈ tokens ∧
        token.lexeme.name? = some name := by
  cases parsed.symm.trans (parseForms_of_ready ready text)
  have found : (Reader.readAll (.code false) (.ofText text)).fault = some fault := by
    rw [Batch.outcome] at failed
    split at failed
    · cases failed
    · next found =>
        cases failed
        exact found
  rcases Reader.exists_spelled_of_fault found with ⟨tokens, ending, scanned, names, stops⟩
  refine ⟨tokens, ending, _, scanned, stops, names_insertAll table _, ?_⟩
  intro name member
  have arrived := (List.mem_filter.1 (List.mem_eraseDups.1 member)).1
  exact List.mem_filterMap.1 (names arrived)

/-- A program that is read adds to the table those names of its symbols that the
table does not hold, each once, in the order in which the forms first have them.
A program that is refused adds only names that are spelled by symbols and words
among the tokens before the one, the flaw or the end at which the reading
stopped. -/
theorem parseForms_interns_in_order {table : SymbolTable} (ready : table.ready = true)
    (text : Bytes) :
    Exists fun result => table.parseForms text = .ok result ∧
      (forall forms, result.outcome = .ok forms ->
        result.table.names = table.names ++
          (((forms.flatMap Node.symbols).map result.table.nameOf).filter
            fun name => name ∉ table.names).eraseDups) ∧
      (forall fault, result.outcome = .error fault ->
        Exists fun tokens => Exists fun ending => Exists fun added =>
          (Cursor.ofText text).Scans tokens ending ∧
          result.cursor = ending.next.2 ∧
          result.table.names = table.names ++ added ∧
          forall name, name ∈ added -> Exists fun token => token ∈ tokens ∧
            token.lexeme.name? = some name) := by
  have parsed := parseForms_of_ready ready text
  refine ⟨_, parsed, ?_, ?_⟩
  · intro forms done
    exact names_of_parseForms parsed done
  · intro fault failed
    exact names_of_refused ready parsed failed

/-- The name of a binding arrives behind its value. -/
theorem parseForms_interns_in_order_binding :
    Exists fun result => empty.prepare.parseForms (Bytes.ofText "(let ((y x)) z y)") = .ok result ∧
      result.table.names =
        empty.prepare.names ++ [Bytes.ofText "x", Bytes.ofText "y", Bytes.ofText "z"] := by
  have value : Item (.code false) [⟨⟨1, 9, 9⟩, .symbol (Bytes.ofText "x")⟩] _ := .atom rfl
  have first : Item (.code false) [⟨⟨1, 13, 13⟩, .symbol (Bytes.ofText "z")⟩] _ := .atom rfl
  have last : Item (.code true) [⟨⟨1, 15, 15⟩, .symbol (Bytes.ofText "y")⟩] _ := .atom rfl
  have item := @Item.scope false ⟨1, 0, 0⟩ ⟨1, 1, 1⟩ .once ⟨1, 5, 5⟩ ⟨1, 11, 11⟩ _ _ ⟨1, 16, 16⟩
    [⟨⟨1, 6, 6⟩, ⟨1, 7, 7⟩, Bytes.ofText "y", ⟨_, _⟩, ⟨1, 10, 10⟩⟩] [⟨_, _⟩]
    (List.forall_mem_singleton.2 value) (List.forall_mem_singleton.2 first) last
  have scanned : (Cursor.ofText (Bytes.ofText "(let ((y x)) z y)")).Scans _ ⟨⟨1, 17, 17⟩, []⟩ :=
    .cons rfl (.cons rfl (.cons rfl (.cons rfl (.cons rfl (.cons rfl (.cons rfl (.cons rfl
      (.cons rfl (.cons rfl (.cons rfl (.nil _)))))))))))
  have parsed := parseForms_of_item (ready_prepare empty) item scanned rfl
  rcases parseForms_interns_in_order (ready_prepare empty) (Bytes.ofText "(let ((y x)) z y)") with
    ⟨result, alsoParsed, ordered, _⟩
  cases alsoParsed.symm.trans parsed
  refine ⟨_, parsed, (ordered _ rfl).trans ?_⟩
  decide +kernel

end SymbolTable

end TailLisp
