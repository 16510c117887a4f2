import TailLisp.CommandLine
import TailLisp.Proofs.CodeAsData
import TailLisp.Proofs.Concatenation
import TailLisp.Proofs.NodePlaces
import TailLisp.Proofs.TableIndependence

namespace TailLisp

/-!
What the program answers.

A program is printed only if all of it is sound.  Data are printed one by one,
and each is printed with the table as it is at that moment; `readEach` reads a
text in this way.  The command reads all data at once and prints them with the
table at the end, which nobody can tell from the outside: the names of a datum
do not change while the table grows.

The arguments decide the mode, the source and whether information is shown.
The answer is fixed byte by byte, and it is a function of the forms with their
names: what goes to the output, and what goes to the error stream in front of
the one complaint there can be.
-/

open Grammar

/-- Outlining a tree by names is outlining the tree of the names. -/
theorem Node.outline_map_name {Symbol : Type} (name : Symbol -> Bytes) (node : Node Symbol) :
    (node.map name).outline id = node.outline name := by
  rw [outline, outlineAt_map]
  rfl

theorem Node.kindName_map {Symbol Target : Type} (replace : Symbol -> Target)
    (node : Node Symbol) : (node.map replace).kindName = node.kindName := by
  cases node <;> rfl

/-! ## Reading item by item -/

/-- A tree that is read into a table has the names there with which it was
written. -/
theorem SymbolTable.map_nameOf_own (table : SymbolTable) (tree : Tree)
    (ready : table.ready = true) :
    (tree.map (table.insertAll tree.names).resolve).map (table.insertAll tree.names).nameOf =
      tree.map Reference.spelling :=
  map_nameOf_resolve (holds_insertAll_names table tree) ((ready_insertAll table _).trans ready)

namespace Session

/-- Reads one item after the other until only blank text is left, or up to the
first fault.  Each item comes with the table as it is then. -/
def readEach (session : Session) (slot : Slot) :
    List (SymbolTable × Node SymbolId) × Option Fault :=
  let here := session.skipBlank
  if here.cursor.atEnd then
    ([], none)
  else
    match _done : (here.readItem slot).1 with
    | .error fault => ([], some fault)
    | .ok node =>
        let after := (here.readItem slot).2
        let later := after.readEach slot
        ((after.table, node) :: later.1, later.2)
termination_by session.cursor.rest.length
decreasing_by
  exact Nat.lt_of_lt_of_le (SymbolTable.length_readItem_lt _done) (Cursor.length_skipBlank_le _)

theorem readEach_of_atEnd {session : Session} {slot : Slot}
    (ended : session.cursor.skipBlank.atEnd = true) : session.readEach slot = ([], none) := by
  rw [readEach]
  exact if_pos ended

theorem readEach_eq {session : Session} {slot : Slot}
    (more : ¬ session.cursor.skipBlank.atEnd = true) :
    session.readEach slot =
      let read := session.skipBlank.readItem slot
      match read.1 with
      | .error fault => ([], some fault)
      | .ok node =>
          ((read.2.table, node) :: (read.2.readEach slot).1, (read.2.readEach slot).2) := by
  rw [readEach]
  refine (if_neg more).trans ?_
  split
  · next fault failed => simp only [failed]
  · next node done => simp only [done]

theorem readEach_of_fault {session : Session} {slot : Slot} {fault : Fault}
    (more : ¬ session.cursor.skipBlank.atEnd = true)
    (failed : (Reader.read slot session.cursor).outcome = .error fault) :
    session.readEach slot = ([], some fault) := by
  have stopped : (session.skipBlank.readItem slot).1 = .error fault := by
    rw [← Reader.read_skipBlank] at failed
    change (Reader.read slot session.cursor.skipBlank).outcome.map _ = _
    rw [failed]
    rfl
  simp only [readEach_eq more, stopped]

theorem readEach_of_item {session : Session} {slot : Slot} {tokens : List Token} {tree : Tree}
    {ending : Cursor} (scanned : session.cursor.Scans tokens ending) (item : Item slot tokens tree) :
    let filled := session.table.insertAll tree.names
    let later := readEach { session with table := filled, cursor := ending } slot
    session.readEach slot = ((filled, tree.map filled.resolve) :: later.1, later.2) := by
  intro filled later
  simp only [readEach_eq (scanned.not_atEnd item.tokens_ne_nil), readItem_of_item scanned item]
  rfl

theorem readEach_skipBlank (session : Session) (slot : Slot) :
    session.skipBlank.readEach slot = session.readEach slot := by
  have same : session.skipBlank.skipBlank = session.skipBlank := by
    rw [skipBlank, skipBlank, Cursor.skipBlank_skipBlank]
  rw [readEach, readEach, same]

/-- Reading item by item finds the items and the fault of the whole text.  Under
its own table each item has the names with which it was written. -/
theorem readEach_eq_readAll {session : Session} {slot : Slot}
    (ready : session.table.ready = true) (more : ¬ session.cursor.skipBlank.atEnd = true) :
    (session.readEach slot).2 = (Reader.readAll slot session.cursor).fault ∧
      (session.readEach slot).1.map (fun entry => entry.2.map entry.1.nameOf) =
        (Reader.readAll slot session.cursor).items.map (Node.map Reference.spelling) := by
  rcases session with ⟨table, cursor, latest⟩
  dsimp only at ready more ⊢
  fun_induction Reader.readAll slot cursor generalizing table with
  | case1 cursor first fault failed =>
      rw [readEach_of_fault more failed]
      exact ⟨rfl, rfl⟩
  | case2 cursor first tree done after ended =>
      rcases Reader.read_outcome_eq_ok done with ⟨_, tokens, scanned, item⟩
      rw [@readEach_of_item ⟨table, cursor, latest⟩ _ _ _ _ scanned item, readEach_of_atEnd ended]
      exact ⟨rfl, congrArg (· :: []) (table.map_nameOf_own tree ready)⟩
  | case3 cursor first tree done after goesOn later inductionHypothesis =>
      rcases Reader.read_outcome_eq_ok done with ⟨_, tokens, scanned, item⟩
      have filledReady : (table.insertAll tree.names).ready = true :=
        (SymbolTable.ready_insertAll _ _).trans ready
      have behind : ¬ after.skipBlank.atEnd = true := by
        rwa [Cursor.skipBlank_skipBlank]
      rcases inductionHypothesis (table.insertAll tree.names) filledReady behind with
        ⟨sameFault, sameItems⟩
      rw [@readEach_of_item ⟨table, cursor, latest⟩ _ _ _ _ scanned item, ← readEach_skipBlank]
      exact ⟨sameFault, congr (congrArg List.cons (table.map_nameOf_own tree ready)) sameItems⟩

theorem readEach_start {text : Bytes} (slot : Slot)
    (more : ¬ (Cursor.ofText text).skipBlank.atEnd = true) :
    let each := (start SymbolTable.empty.prepare 1 0 text).readEach slot
    each.2 = (Reader.readAll slot (.ofText text)).fault ∧
      each.1.map (fun entry => entry.2.map entry.1.nameOf) =
        (Reader.readAll slot (.ofText text)).items.map (Node.map Reference.spelling) :=
  readEach_eq_readAll (SymbolTable.ready_prepare _) more

end Session

/-! ## Reading all at once -/

namespace Reader

/-- The names of the items of a text arrive first. -/
theorem names_isPrefix_readAll (slot : Slot) (cursor : Cursor) :
    (readAll slot cursor).items.flatMap Node.names <+: (readAll slot cursor).names := by
  fun_induction readAll slot cursor with
  | case1 => exact List.nil_prefix
  | case2 cursor first tree done after ended =>
      have same : [tree].flatMap Node.names = first.names := by
        rw [List.flatMap_singleton, (read_outcome_eq_ok done).1]
      exact ⟨[], (List.append_nil _).trans same⟩
  | case3 cursor first tree done after goesOn later inductionHypothesis =>
      rw [(read_outcome_eq_ok done).1, List.flatMap_cons]
      exact (List.prefix_append_right_inj _).2 inductionHypothesis

end Reader

namespace SymbolTable

/-- Under the table at the end, the items of a text have the names with which
they were written. -/
theorem map_nameOf_readItems {table : SymbolTable} (ready : table.ready = true) (slot : Slot)
    (cursor : Cursor) :
    (table.readItems slot cursor).1.items.map (Node.map (table.readItems slot cursor).2.nameOf) =
      (Reader.readAll slot cursor).items.map (Node.map Reference.spelling) := by
  change ((Reader.readAll slot cursor).items.map _).map _ = _
  rw [List.map_map]
  apply List.map_congr_left
  intro tree member
  have held : (table.insertAll (Reader.readAll slot cursor).names).Holds tree := by
    intro name arrives
    have among := List.mem_flatMap.2 ⟨tree, member, arrives⟩
    exact mem_insertAll.2 (Or.inr ((Reader.names_isPrefix_readAll slot cursor).subset among))
  exact map_nameOf_resolve held ((ready_insertAll table _).trans ready)

end SymbolTable

namespace CommandLine

/-! ## The texts of the notices -/

/-- A fault at its place and in the words of its layer. -/
def errorText (fault : Fault) : Bytes :=
  Bytes.ofText "[ERROR] " ++ fault.subsystem ++ Bytes.ofText ": line " ++
    Bytes.ofInt fault.origin.line ++ Bytes.ofText ", col " ++ Bytes.ofInt fault.origin.column ++
      Bytes.ofText ":\n\t" ++ fault.message ++ Bytes.ofText "\n"

/-- The warning about data of which there are none. -/
def blankText : Bytes :=
  Bytes.ofText "[WARNING] driver:\n\tInput contained no data.\n"

/-- The information that a form was read. -/
def parsedText {Symbol : Type} (form : Node Symbol) : Bytes :=
  Bytes.ofText "[INFO] driver: line " ++ Bytes.ofInt form.pos.line ++ Bytes.ofText ", col " ++
    Bytes.ofInt form.pos.column ++ Bytes.ofText ":\n\tParsed " ++ form.kindName ++
      Bytes.ofText " form.\n"

theorem parsedText_map {Symbol Target : Type} (replace : Symbol -> Target) (form : Node Symbol) :
    parsedText (form.map replace) = parsedText form := by
  rw [parsedText, parsedText, Node.pos_map, Node.kindName_map]

namespace Options

variable (options : Options)

/-- The name under which the source is announced. -/
def sourceName : Bytes :=
  if options.file.isEmpty then Bytes.ofText "<stdin>" else options.file

/-- The information that the source is read. -/
def readingText : Bytes :=
  Bytes.ofText "[INFO] driver:\n\tReading " ++ options.sourceName ++ Bytes.ofText ".\n"

/-- The information about a run: the source, and then every form that is printed.
Nothing is said unless it is asked for. -/
def remarks {Symbol : Type} (forms : List (Node Symbol)) : Bytes :=
  if options.verbose then options.readingText ++ forms.flatMap parsedText else []

/-- A form with its names is shown as an outline or as one line of text. -/
def rendering (named : Node Bytes) : Bytes :=
  if options.outline then named.outline id else named.print id ++ Bytes.ofText "\n"

theorem present_eq_rendering (table : SymbolTable) (form : Node SymbolId) :
    options.present table form = options.rendering (form.map table.nameOf) := by
  rw [present, rendering, Node.print_map_name, Node.outline_map_name]

theorem emit_ofFault (fault : Fault) :
    options.channels.emit (.ofFault fault) = errorText fault := by
  change Notice.render _ = _
  simp only [Notice.render, Notice.ofFault, Position.spelling, errorText, List.append_assoc]
  rfl

theorem emit_reading :
    options.channels.emit
        (notice .info none (Bytes.ofText "Reading " ++ options.sourceName ++ Bytes.ofText ".")) =
      if options.verbose then options.readingText else [] := by
  change (if options.verbose then Notice.render _ else []) = _
  apply if_congr Iff.rfl _ rfl
  simp only [Notice.render, notice, readingText, List.append_assoc]
  rfl

theorem remark_eq (form : Node SymbolId) :
    options.remark form = if options.verbose then parsedText form else [] := by
  change (if options.verbose then Notice.render _ else []) = _
  apply if_congr Iff.rfl _ rfl
  simp only [Notice.render, notice, Position.spelling, parsedText, List.append_assoc]
  rfl

/-- The announcement of the source and what is said about the forms make up all
the information.  It does not depend on the names. -/
theorem emit_reading_append_remarks (forms : List (Node SymbolId)) (name : SymbolId -> Bytes) :
    options.channels.emit
          (notice .info none (Bytes.ofText "Reading " ++ options.sourceName ++ Bytes.ofText ".")) ++
        forms.flatMap options.remark =
      options.remarks (forms.map (Node.map name)) := by
  have ofForms : options.remark = fun form => if options.verbose then parsedText form else [] :=
    funext options.remark_eq
  have unnamed : (forms.map (Node.map name)).flatMap parsedText = forms.flatMap parsedText := by
    rw [List.flatMap_map]
    exact List.flatMap_congr fun form _ => parsedText_map name form
  rw [emit_reading, ofForms, remarks, unnamed]
  cases options.verbose with
  | true => rfl
  | false => exact List.flatMap_eq_nil_iff.2 fun _ _ => rfl

theorem report_diagnostics (table : SymbolTable) (forms : List (Node SymbolId))
    (fault : Option Fault) :
    (options.report table forms fault).diagnostics =
      forms.flatMap options.remark ++ fault.toList.flatMap errorText := by
  cases fault with
  | none => rfl
  | some fault =>
      rw [Option.toList_some, List.flatMap_singleton, ← options.emit_ofFault]
      rfl

/-- Forms and a fault are reported by the names of the symbols. -/
theorem runOn_of_report {text : Bytes} {table : SymbolTable} {forms : List (Node SymbolId)}
    {fault : Option Fault}
    (computed : (if options.data then options.runData text else options.runCode text) =
      options.report table forms fault) :
    let named := forms.map (Node.map table.nameOf)
    options.runOn options.sourceName text =
      { status := if fault.isSome then 1 else 0
        output := named.flatMap options.rendering
        diagnostics := options.remarks named ++ fault.toList.flatMap errorText } := by
  intro named
  have shown : named.flatMap options.rendering = forms.flatMap (options.present table) := by
    rw [List.flatMap_map]
    exact List.flatMap_congr fun form _ => (options.present_eq_rendering table form).symm
  rw [runOn, computed, report_diagnostics, shown, ← List.append_assoc,
    options.emit_reading_append_remarks forms table.nameOf]
  rfl

/-! ## The contract -/

/-- What a run on a text has to answer.  The forms of a program are printed if it
is sound; otherwise its fault is the only complaint.  Data are printed one by one
up to the first fault. -/
structure Contract (text : Bytes) (result : Result) : Prop where
  program : options.data = false -> Exists fun read =>
    SymbolTable.empty.prepare.parseForms text = .ok read ∧
      (forall forms, read.outcome = .ok forms ->
        let named := forms.map (Node.map read.table.nameOf)
        result =
          { status := 0
            output := named.flatMap options.rendering
            diagnostics := options.remarks named }) ∧
      (forall fault, read.outcome = .error fault ->
        result =
          { status := 1
            output := []
            diagnostics := options.remarks ([] : List (Node Bytes)) ++ errorText fault })
  blank : options.data = true -> Blank.LastGap text ->
    result =
      { status := 0
        output := []
        diagnostics := options.remarks ([] : List (Node Bytes)) ++ blankText }
  data : options.data = true -> ¬ Blank.LastGap text ->
    let each := (Session.start SymbolTable.empty.prepare 1 0 text).readEach .data
    let named := each.1.map fun entry => entry.2.map entry.1.nameOf
    result =
      { status := if each.2.isSome then 1 else 0
        output := named.flatMap options.rendering
        diagnostics := options.remarks named ++ each.2.toList.flatMap errorText }

theorem runCode_eq {text : Bytes} {read : Interned (List (Node SymbolId))}
    (parsed : SymbolTable.empty.prepare.parseForms text = .ok read) :
    options.runCode text =
      match read.outcome with
      | .ok forms => options.report read.table forms none
      | .error fault => options.report read.table [] (some fault) := by
  rw [SymbolTable.parseForms_of_ready (SymbolTable.ready_prepare _)] at parsed
  cases parsed
  simp only [runCode, SymbolTable.readItems, Batch.outcome, Batch.map]
  cases (Reader.readAll (.code false) (.ofText text)).fault <;> rfl

theorem runOn_program (text : Bytes) (isProgram : options.data = false) :
    let result := options.runOn options.sourceName text
    Exists fun read => SymbolTable.empty.prepare.parseForms text = .ok read ∧
      (forall forms, read.outcome = .ok forms ->
        let named := forms.map (Node.map read.table.nameOf)
        result =
          { status := 0
            output := named.flatMap options.rendering
            diagnostics := options.remarks named }) ∧
      (forall fault, read.outcome = .error fault ->
        result =
          { status := 1
            output := []
            diagnostics := options.remarks ([] : List (Node Bytes)) ++ errorText fault }) := by
  intro result
  have isRead : Exists fun read => SymbolTable.empty.prepare.parseForms text = .ok read :=
    ⟨_, SymbolTable.parseForms_of_ready (SymbolTable.ready_prepare _) text⟩
  rcases isRead with ⟨read, parsed⟩
  have chosen : (if options.data then options.runData text else options.runCode text) =
      options.runCode text :=
    if_neg (Bool.eq_false_iff.1 isProgram)
  have computed := chosen.trans (options.runCode_eq parsed)
  refine ⟨read, parsed, ?_, ?_⟩
  · intro forms done named
    rw [done] at computed
    have reported := options.runOn_of_report computed
    dsimp only at reported
    rwa [Option.toList_none, List.flatMap_nil, List.append_nil] at reported
  · intro fault failed
    rw [failed] at computed
    have reported := options.runOn_of_report computed
    dsimp only at reported
    rwa [Option.toList_some, List.flatMap_singleton] at reported

theorem runOn_blank {text : Bytes} (isData : options.data = true) (isBlank : Blank.LastGap text) :
    options.runOn options.sourceName text =
      { status := 0
        output := []
        diagnostics := options.remarks ([] : List (Node Bytes)) ++ blankText } := by
  have ended := (Cursor.ofText text).atEnd_skipBlank_iff_lastGap.2 isBlank
  have computed : (if options.data then options.runData text else options.runCode text) =
      { status := 0, output := [], diagnostics := blankText } := by
    rw [if_pos isData, runData]
    exact if_pos ended
  have opening := options.emit_reading_append_remarks [] SymbolTable.empty.nameOf
  rw [List.flatMap_nil, List.append_nil] at opening
  rw [runOn, computed, opening]
  rfl

theorem runOn_data {text : Bytes} (isData : options.data = true) (notBlank : ¬ Blank.LastGap text) :
    let each := (Session.start SymbolTable.empty.prepare 1 0 text).readEach .data
    let named := each.1.map fun entry => entry.2.map entry.1.nameOf
    options.runOn options.sourceName text =
      { status := if each.2.isSome then 1 else 0
        output := named.flatMap options.rendering
        diagnostics := options.remarks named ++ each.2.toList.flatMap errorText } := by
  intro each named
  have more := mt (Cursor.ofText text).atEnd_skipBlank_iff_lastGap.1 notBlank
  have ready : SymbolTable.empty.prepare.ready = true := SymbolTable.ready_prepare _
  let read := SymbolTable.empty.prepare.readItems .data (.ofText text)
  have computed : (if options.data then options.runData text else options.runCode text) =
      options.report read.2 read.1.items read.1.fault := by
    rw [if_pos isData, runData]
    simp only [if_neg more, SymbolTable.readItems, Reader.readAll_skipBlank]
    rfl
  rcases Session.readEach_start .data more with ⟨sameFault, sameNames⟩
  have atTheEnd : named = read.1.items.map (Node.map read.2.nameOf) :=
    sameNames.trans (SymbolTable.map_nameOf_readItems ready .data (.ofText text)).symm
  rw [atTheEnd, show each.2 = read.1.fault from sameFault]
  exact options.runOn_of_report computed

/-- The run on a source that can be read fulfils the contract. -/
theorem runOn_contract (text : Bytes) :
    options.Contract text (options.runOn options.sourceName text) where
  program := options.runOn_program text
  blank := options.runOn_blank
  data := options.runOn_data

/-- The text of the source that the options name, if it can be read. -/
def source? (input : Bytes) (contents? : Bytes -> Option Bytes) : Option Bytes :=
  if options.file.isEmpty then some input else contents? options.file

theorem run_contract {input text : Bytes} {contents? : Bytes -> Option Bytes}
    (readable : options.source? input contents? = some text) :
    options.Contract text (options.run input contents?) := by
  have contract := options.runOn_contract text
  unfold source? at readable
  unfold sourceName at contract
  unfold run
  split at readable
  · next standard =>
      cases readable
      rwa [if_pos standard] at contract ⊢
  · next named =>
      rw [if_neg named] at contract ⊢
      rwa [readable]

/-- Runs in the same mode on the same text answer the same, but for information. -/
theorem Contract.exists_answers {options other : Options} {text : Bytes} {result another : Result}
    (first : options.Contract text result) (second : other.Contract text another)
    (sameMode : other.data = options.data) (sameStyle : other.outline = options.outline) :
    Exists fun (forms : List (Node Bytes)) => Exists fun complaints =>
      another.status = result.status ∧ another.output = result.output ∧
        result.diagnostics = options.remarks forms ++ complaints ∧
          another.diagnostics = other.remarks forms ++ complaints := by
  have sameRendering : other.rendering = options.rendering := by
    funext named
    rw [rendering, rendering, sameStyle]
  cases mode : options.data with
  | false =>
      rcases first.program mode with ⟨read, parsed, accepted, rejected⟩
      rcases second.program (sameMode.trans mode) with ⟨again, alsoParsed, alsoAccepted, alsoRejected⟩
      cases parsed.symm.trans alsoParsed
      rw [sameRendering] at alsoAccepted
      cases outcome : read.outcome with
      | ok forms =>
          refine ⟨forms.map (Node.map read.table.nameOf), [], ?_⟩
          rw [accepted forms outcome, alsoAccepted forms outcome, List.append_nil, List.append_nil]
          exact ⟨rfl, rfl, rfl, rfl⟩
      | error fault =>
          refine ⟨[], errorText fault, ?_⟩
          rw [rejected fault outcome, alsoRejected fault outcome]
          exact ⟨rfl, rfl, rfl, rfl⟩
  | true =>
      by_cases isBlank : Blank.LastGap text
      · refine ⟨[], blankText, ?_⟩
        rw [first.blank mode isBlank, second.blank (sameMode.trans mode) isBlank]
        exact ⟨rfl, rfl, rfl, rfl⟩
      · have answered := first.data mode isBlank
        have alsoAnswered := second.data (sameMode.trans mode) isBlank
        rw [sameRendering] at alsoAnswered
        rw [answered, alsoAnswered]
        exact ⟨_, _, rfl, rfl, rfl, rfl⟩

/-! ## Arguments -/

/-- The same with information. -/
def verbosely : Options :=
  { options with verbose := true }

/-- With information, a run says more and does the same. -/
theorem run_verbosely {input text : Bytes} {contents? : Bytes -> Option Bytes}
    (readable : options.source? input contents? = some text) :
    let quiet := options.run input contents?
    let loud := options.verbosely.run input contents?
    loud.status = quiet.status ∧ loud.output = quiet.output ∧
      Exists fun forms : List (Node Bytes) =>
        loud.diagnostics =
          (if options.verbose then [] else options.readingText ++ forms.flatMap parsedText) ++
            quiet.diagnostics := by
  intro quiet loud
  have contract : options.Contract text quiet := options.run_contract readable
  have loudContract : options.verbosely.Contract text loud :=
    options.verbosely.run_contract readable
  rcases contract.exists_answers loudContract rfl rfl with
    ⟨forms, complaints, sameStatus, sameOutput, quietly, loudly⟩
  refine ⟨sameStatus, sameOutput, forms, ?_⟩
  rw [loudly, quietly, remarks, remarks]
  -- The options may have asked for information already.
  cases options.verbose <;> rfl

end Options

/-- The same with information, if anything is run. -/
def Request.verbosely : Request -> Request
  | run options => run options.verbosely
  | request => request

/-- An argument decides the request, or the reading goes on behind it.  Either
way information makes no difference. -/
theorem requestFrom_cons (options : Options) (dash : Bool) (argument : Bytes) :
    (Exists fun decided : Request => decided.verbosely = decided ∧ forall arguments,
      requestFrom options dash (argument :: arguments) = decided ∧
        requestFrom options.verbosely dash (argument :: arguments) = decided) ∨
    (Exists fun next => Exists fun nextDash => forall arguments,
      requestFrom options dash (argument :: arguments) = requestFrom next nextDash arguments ∧
        requestFrom options.verbosely dash (argument :: arguments) =
          requestFrom next.verbosely nextDash arguments) := by
  by_cases isOption : argument.head? = some '-'.toUInt8
  · simp only [requestFrom, if_pos isOption]
    split
    · by_cases second : (dash || !options.file.isEmpty) = true
      · exact .inl ⟨_, rfl, fun arguments => ⟨if_pos second, if_pos second⟩⟩
      · exact .inr ⟨options, true, fun arguments => ⟨if_neg second, if_neg second⟩⟩
    · next dashByte letter =>
        by_cases help : letter = 'h'.toUInt8
        · simp only [if_pos help]
          exact .inl ⟨_, rfl, fun arguments => ⟨rfl, rfl⟩⟩
        by_cases data : letter = 'd'.toUInt8
        · simp only [if_neg help, if_pos data]
          exact .inr ⟨{ options with data := true }, dash, fun arguments => ⟨rfl, rfl⟩⟩
        by_cases outline : letter = 't'.toUInt8
        · simp only [if_neg help, if_neg data, if_pos outline]
          exact .inr ⟨{ options with outline := true }, dash, fun arguments => ⟨rfl, rfl⟩⟩
        by_cases verbose : letter = 'v'.toUInt8
        · simp only [if_neg help, if_neg data, if_neg outline, if_pos verbose]
          exact .inr ⟨options.verbosely, dash, fun arguments => ⟨rfl, rfl⟩⟩
        simp only [if_neg help, if_neg data, if_neg outline, if_neg verbose]
        exact .inl ⟨_, rfl, fun arguments => ⟨rfl, rfl⟩⟩
    · exact .inl ⟨_, rfl, fun arguments => ⟨rfl, rfl⟩⟩
  · simp only [requestFrom, if_neg isOption]
    by_cases second : (dash || !options.file.isEmpty) = true
    · exact .inl ⟨_, rfl, fun arguments => ⟨if_pos second, if_pos second⟩⟩
    · exact .inr ⟨{ options with file := argument }, dash,
        fun arguments => ⟨if_neg second, if_neg second⟩⟩

theorem requestFrom_verbosely (options : Options) (dash : Bool) (arguments : List Bytes) :
    requestFrom options.verbosely dash arguments =
      (requestFrom options dash arguments).verbosely := by
  induction arguments generalizing options dash with
  | nil => rfl
  | cons argument arguments inductionHypothesis =>
      rcases requestFrom_cons options dash argument with
        ⟨decided, same, stops⟩ | ⟨next, nextDash, goesOn⟩
      · rw [(stops arguments).1, (stops arguments).2, same]
      · rw [(goesOn arguments).1, (goesOn arguments).2, inductionHypothesis]

/-- The wish for information can stand anywhere among the arguments. -/
theorem requestFrom_insert (options : Options) (dash : Bool) (before after : List Bytes) :
    requestFrom options dash (before ++ Bytes.ofText "-v" :: after) =
      (requestFrom options dash (before ++ after)).verbosely := by
  induction before generalizing options dash with
  | nil => exact requestFrom_verbosely options dash after
  | cons argument before inductionHypothesis =>
      rw [List.cons_append, List.cons_append]
      rcases requestFrom_cons options dash argument with
        ⟨decided, same, stops⟩ | ⟨next, nextDash, goesOn⟩
      · rw [(stops _).1, (stops _).1, same]
      · rw [(goesOn _).1, (goesOn _).1, inductionHypothesis]

/-! ## The command -/

/-- What the command answers to arguments that it accepts, on a source that it
can read.  The run fulfils the contract of its mode.  It does not matter where
the text comes from.  Asking for information at any place among the arguments
leads to the contract with information, which only puts the source and the forms
in front of what is said anyway. -/
theorem request_result_fulfils_contract {arguments : List Bytes} {options : Options}
    {input text : Bytes} {contents? : Bytes -> Option Bytes}
    (accepted : request arguments = .run options)
    (readable : options.source? input contents? = some text) :
    let result := (request arguments).result input contents?
    options.Contract text result ∧
    (forall (others : List Bytes) (other : Options) (otherInput : Bytes)
        (otherContents? : Bytes -> Option Bytes),
      request others = .run other -> other.source? otherInput otherContents? = some text ->
        other.data = options.data -> other.outline = options.outline ->
          ((request others).result otherInput otherContents?).status = result.status ∧
            ((request others).result otherInput otherContents?).output = result.output) ∧
    (forall before after, arguments = before ++ after ->
      let loud := (request (before ++ Bytes.ofText "-v" :: after)).result input contents?
      options.verbosely.Contract text loud ∧
        loud.status = result.status ∧ loud.output = result.output ∧
          Exists fun forms : List (Node Bytes) =>
            loud.diagnostics =
              (if options.verbose then [] else options.readingText ++ forms.flatMap parsedText) ++
                result.diagnostics) := by
  intro result
  have isRun : result = options.run input contents? := congrArg (·.result input contents?) accepted
  have contract : options.Contract text result := isRun ▸ options.run_contract readable
  refine ⟨contract, ?_, ?_⟩
  · intro others other otherInput otherContents? otherAccepted otherReadable sameMode sameStyle
    rw [otherAccepted]
    rcases contract.exists_answers (other.run_contract otherReadable) sameMode sameStyle with
      ⟨_, _, sameStatus, sameOutput, _⟩
    exact ⟨sameStatus, sameOutput⟩
  · intro before after whole
    have alsoAccepted : request (before ++ Bytes.ofText "-v" :: after) = .run options.verbosely := by
      rw [request, requestFrom_insert, ← whole]
      exact congrArg Request.verbosely accepted
    rw [alsoAccepted, isRun]
    exact ⟨options.verbosely.run_contract readable, options.run_verbosely readable⟩

/-- A sound datum in front of a malformed one is printed, with or without
information. -/
theorem request_result_malformed_datum :
    let result := (request [Bytes.ofText "-d"]).result (Bytes.ofText "a )") fun _ => none
    let loud := (request [Bytes.ofText "-d", Bytes.ofText "-v"]).result (Bytes.ofText "a )")
      fun _ => none
    let complaint := Bytes.ofText "[ERROR] parser: line 1, col 2:\n\tUnmatched delimiter ')'.\n"
    let information := Bytes.ofText <|
      "[INFO] driver:\n\tReading <stdin>.\n" ++
      "[INFO] driver: line 1, col 0:\n\tParsed symbol form.\n"
    result.status = 1 ∧ result.output = Bytes.ofText "a\n" ∧ result.diagnostics = complaint ∧
      loud.status = 1 ∧ loud.output = Bytes.ofText "a\n" ∧
        loud.diagnostics = information ++ complaint := by
  intro result loud complaint information
  have accepted : request [Bytes.ofText "-d"] = .run { Options.default with data := true } := rfl
  rcases @request_result_fulfils_contract [Bytes.ofText "-d"] _ (Bytes.ofText "a )") _ (fun _ => none)
    accepted rfl with ⟨contract, _, informed⟩
  rcases informed [Bytes.ofText "-d"] [] rfl with ⟨loudContract, _⟩
  have notBlank : ¬ Blank.LastGap (Bytes.ofText "a )") := by
    rw [Blank.lastGap_iff]
    decide
  have answered : result = _ := contract.data rfl notBlank
  have alsoAnswered : loud = _ := loudContract.data rfl notBlank
  rw [answered, alsoAnswered]
  refine ⟨?_, ?_, ?_, ?_, ?_, ?_⟩ <;> decide +kernel

end CommandLine

end TailLisp
