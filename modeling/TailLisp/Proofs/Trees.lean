import Mathlib.Data.List.Basic
import TailLisp.Node.Equality
import TailLisp.Node.Printer
import TailLisp.Node.Tail

namespace TailLisp

/-!
Trees as structures.

The operations on trees are written by recursion through the lists of their
parts.  Here each such recursion is shown to be the familiar operation on
lists, and trees receive an induction principle whose hypotheses speak of the
members of those lists.  With the two together, later proofs never have to
follow a list of parts by themselves.

Two readings of the same text can differ in the marks only.  `remark` changes
all marks of a tree at once, so that trees can be compared without their
places, or without places and tail flags.  The second comparison is exactly
`same`.
-/

namespace Node

variable {Symbol Target Other : Type}

/-- Induction over trees.  What is to be shown of a tree may be assumed of its
parts, wherever they stand in it. -/
@[elab_as_elim, induction_eliminator]
theorem byParts {motive : Node Symbol -> Prop}
    (integer : forall mark value, motive (.integer mark value))
    (char : forall mark value, motive (.char mark value))
    (string : forall mark contents, motive (.string mark contents))
    (boolean : forall mark value, motive (.boolean mark value))
    (symbol : forall mark name, motive (.symbol mark name))
    (empty : forall mark, motive (.empty mark))
    (pair : forall mark car cdr, motive car -> motive cdr -> motive (.pair mark car cdr))
    (list : forall mark first others, motive first -> (forall item, item ∈ others -> motive item) ->
      motive (.list mark first others))
    (quote : forall mark datum, motive datum -> motive (.quote mark datum))
    (begin : forall mark body, (forall item, item ∈ body -> motive item) -> motive (.begin mark body))
    (define : forall mark name value, motive value -> motive (.define mark name value))
    (conditional : forall mark test consequent alternative, motive test -> motive consequent ->
      motive alternative -> motive (.conditional mark test consequent alternative))
    (scope : forall mark kind bindings body, (forall binding, binding ∈ bindings -> motive binding.2) ->
      (forall item, item ∈ body -> motive item) -> motive (.scope mark kind bindings body))
    (lambda : forall mark name params body, (forall item, item ∈ body -> motive item) ->
      motive (.lambda mark name params body))
    (recur : forall mark args, (forall item, item ∈ args -> motive item) -> motive (.recur mark args))
    (node : Node Symbol) : motive node :=
  @Node.rec Symbol motive (fun items => forall item, item ∈ items -> motive item)
    (fun bindings => forall binding, binding ∈ bindings -> motive binding.2)
    (fun binding => motive binding.2)
    integer char string boolean symbol empty pair list quote begin define conditional scope lambda
    recur
    (fun _ impossible => nomatch impossible)
    (fun _ _ first others => List.forall_mem_cons.2 ⟨first, others⟩)
    (fun _ impossible => nomatch impossible)
    (fun _ _ first others => List.forall_mem_cons.2 ⟨first, others⟩)
    (fun _ _ value => value) node

/-! ## Lists of parts -/

@[simp] theorem mapSeries_eq (replace : Symbol -> Target) (items : List (Node Symbol)) :
    mapSeries replace items = items.map (Node.map replace) := by
  induction items with
  | nil => rfl
  | cons item items inductionHypothesis =>
      rw [mapSeries, inductionHypothesis, List.map_cons]

@[simp] theorem mapBindings_eq (replace : Symbol -> Target)
    (bindings : List (Symbol × Node Symbol)) :
    mapBindings replace bindings =
      bindings.map fun binding => (replace binding.1, binding.2.map replace) := by
  induction bindings with
  | nil => rfl
  | cons binding bindings inductionHypothesis =>
      rw [mapBindings, inductionHypothesis, List.map_cons]

@[simp] theorem printSeries_eq (name : Symbol -> Bytes) (items : List (Node Symbol)) :
    printSeries name items = items.flatMap fun item => Bytes.ofText " " ++ item.print name := by
  induction items with
  | nil => rfl
  | cons item items inductionHypothesis =>
      rw [printSeries, inductionHypothesis, List.flatMap_cons, print]

@[simp] theorem printBindings_eq (name : Symbol -> Bytes)
    (bindings : List (Symbol × Node Symbol)) :
    printBindings name bindings = bindings.map fun binding =>
      parenthesized (name binding.1 ++ Bytes.ofText " " ++ binding.2.print name) := by
  induction bindings with
  | nil => rfl
  | cons binding bindings inductionHypothesis =>
      rw [printBindings, inductionHypothesis, List.map_cons, print]

/-- The way out of a series leads through its last tree. -/
@[simp] theorem lastReachesRecur_concat (init : List (Node Symbol)) (last : Node Symbol) :
    lastReachesRecur (init ++ [last]) = last.reachesRecur := by
  induction init with
  | nil => rfl
  | cons first init inductionHypothesis =>
      cases init with
      | nil => rfl
      | cons second init => exact inductionHypothesis

/-- A change of the trees that keeps what they can end in keeps what the series
can end in. -/
theorem lastReachesRecur_map {change : Node Symbol -> Node Target} {items : List (Node Symbol)}
    (itemsSame : forall item, item ∈ items -> (change item).reachesRecur = item.reachesRecur) :
    lastReachesRecur (items.map change) = lastReachesRecur items := by
  rcases List.eq_nil_or_concat' items with nothing | ⟨init, last, same⟩
  · rw [nothing]
    rfl
  · rw [same, List.map_append, List.map_singleton, lastReachesRecur_concat,
      lastReachesRecur_concat]
    exact itemsSame last (by simp [same])

/-- Only the last tree of a series is demoted with it. -/
theorem demoteLast_concat (init : List (Node Symbol)) (last : Node Symbol) :
    demoteLast (init ++ [last]) = last.demote.map fun demoted => init ++ [demoted] := by
  induction init with
  | nil => cases demoted : last.demote <;> simp [demoteLast, demoted] <;> rfl
  | cons first init inductionHypothesis =>
      have unfolded : demoteLast (first :: init ++ [last]) =
          (demoteLast (init ++ [last])).map fun demoted => first :: demoted := by
        cases init <;> rfl
      rw [unfolded, inductionHypothesis]
      cases last.demote <;> rfl

/-! ## Replacing symbols -/

/-- Replacing symbols twice is replacing them once. -/
theorem map_map (first : Symbol -> Target) (second : Target -> Other) (node : Node Symbol) :
    (node.map first).map second = node.map (second ∘ first) := by
  induction node with
  | list mark item items firstSame othersSame =>
      simpa [map, firstSame] using othersSame
  | begin mark body bodySame => simpa [map] using bodySame
  | scope mark kind bindings body bindingsSame bodySame =>
      simpa [map] using ⟨fun name value member => bindingsSame (name, value) member, bodySame⟩
  | lambda mark name params body bodySame => simpa [map] using bodySame
  | recur mark args argsSame => simpa [map] using argsSame
  | pair mark car cdr carSame cdrSame => rw [map, map, map, carSame, cdrSame]
  | quote mark datum datumSame => rw [map, map, map, datumSame]
  | define mark name value valueSame => rw [map, map, map, valueSame, Function.comp]
  | conditional mark test consequent alternative testSame consequentSame alternativeSame =>
      rw [map, map, map, testSame, consequentSame, alternativeSame]
  | _ => rfl

theorem map_id (node : Node Symbol) : node.map id = node := by
  have series (items : List (Node Symbol))
      (itemsSame : forall item, item ∈ items -> item.map id = item) :
      items.map (Node.map id) = items :=
    (List.map_congr_left itemsSame).trans (List.map_id' items)
  induction node with
  | list mark first others firstSame othersSame =>
      rw [map, mapSeries_eq, firstSame, series others othersSame]
  | begin mark body bodySame => rw [map, mapSeries_eq, series body bodySame]
  | scope mark kind bindings body bindingsSame bodySame =>
      have kept : mapBindings id bindings = bindings := by
        rw [mapBindings_eq]
        refine (List.map_congr_left fun binding member => ?_).trans (List.map_id' bindings)
        rw [bindingsSame binding member]
        rfl
      rw [map, mapSeries_eq, kept, series body bodySame]
  | lambda mark name params body bodySame =>
      rw [map, mapSeries_eq, List.map_id, series body bodySame]
  | recur mark args argsSame => rw [map, mapSeries_eq, series args argsSame]
  | pair mark car cdr carSame cdrSame => rw [map, carSame, cdrSame]
  | quote mark datum datumSame => rw [map, datumSame]
  | define mark name value valueSame => rw [map, valueSame, id]
  | conditional mark test consequent alternative testSame consequentSame alternativeSame =>
      rw [map, testSame, consequentSame, alternativeSame]
  | _ => rfl

/-- A text is the same whether symbols are replaced before printing or named
while printing. -/
theorem printAt_map (replace : Symbol -> Target) (name : Target -> Bytes) (inChain : Bool)
    (node : Node Symbol) :
    (node.map replace).printAt name inChain = node.printAt (name ∘ replace) inChain := by
  -- The parts of a series are never in a chain, so one congruence serves all series.
  have series (items : List (Node Symbol))
      (itemsSame : forall item, item ∈ items -> forall inChain,
        (item.map replace).printAt name inChain = item.printAt (name ∘ replace) inChain) :
      printSeries name (items.map (Node.map replace)) = printSeries (name ∘ replace) items := by
    rw [printSeries_eq, printSeries_eq, List.flatMap_map]
    refine List.flatMap_congr fun item member => ?_
    rw [print, print, itemsSame item member]
  induction node generalizing inChain with
  | pair mark car cdr carSame cdrSame => rw [map, printAt, printAt, carSame, cdrSame]
  | list mark first others firstSame othersSame =>
      rw [map, mapSeries_eq, printAt, printAt, firstSame, series others othersSame]
  | quote mark datum datumSame => rw [map, printAt, printAt, datumSame]
  | begin mark body bodySame => rw [map, mapSeries_eq, printAt, printAt, series body bodySame]
  | define mark label value valueSame => rw [map, printAt, printAt, valueSame, Function.comp]
  | conditional mark test consequent alternative testSame consequentSame alternativeSame =>
      rw [map, printAt, printAt, testSame, consequentSame, alternativeSame]
  | scope mark kind bindings body bindingsSame bodySame =>
      have printed : printBindings name (mapBindings replace bindings) =
          printBindings (name ∘ replace) bindings := by
        rw [mapBindings_eq, printBindings_eq, printBindings_eq, List.map_map]
        refine List.map_congr_left fun binding member => ?_
        simp only [Function.comp, print, bindingsSame binding member]
      rw [map, mapSeries_eq, printAt, printAt, printed, series body bodySame]
  | lambda mark label params body bodySame =>
      rw [map, mapSeries_eq, printAt, printAt, series body bodySame, printParams, printParams,
        List.map_map]
  | recur mark args argsSame => rw [map, mapSeries_eq, printAt, printAt, series args argsSame]
  | _ => rfl

mutual

/-- The symbols of a tree in the order in which reading its text meets them.
The name of a binding comes behind its value, and a lambda's own name is not a
symbol. -/
def symbols : Node Symbol -> List Symbol
  | symbol _ name => [name]
  | pair _ car cdr => car.symbols ++ cdr.symbols
  | list _ first others => first.symbols ++ symbolsOfSeries others
  | quote _ datum => datum.symbols
  | begin _ body => symbolsOfSeries body
  | define _ name value => name :: value.symbols
  | conditional _ test consequent alternative =>
      test.symbols ++ consequent.symbols ++ alternative.symbols
  | scope _ _ bindings body => symbolsOfBindings bindings ++ symbolsOfSeries body
  | lambda _ _ params body => params ++ symbolsOfSeries body
  | recur _ args => symbolsOfSeries args
  | _ => []

def symbolsOfSeries : List (Node Symbol) -> List Symbol
  | [] => []
  | item :: items => item.symbols ++ symbolsOfSeries items

def symbolsOfBindings : List (Symbol × Node Symbol) -> List Symbol
  | [] => []
  | (name, value) :: bindings => value.symbols ++ name :: symbolsOfBindings bindings

end

@[simp] theorem symbolsOfSeries_eq (items : List (Node Symbol)) :
    symbolsOfSeries items = items.flatMap symbols := by
  induction items with
  | nil => rfl
  | cons item items inductionHypothesis =>
      rw [symbolsOfSeries, inductionHypothesis, List.flatMap_cons]

@[simp] theorem symbolsOfBindings_eq (bindings : List (Symbol × Node Symbol)) :
    symbolsOfBindings bindings =
      bindings.flatMap fun binding => binding.2.symbols ++ [binding.1] := by
  induction bindings with
  | nil => rfl
  | cons binding bindings inductionHypothesis =>
      rw [symbolsOfBindings, inductionHypothesis, List.flatMap_cons, List.append_assoc,
        List.singleton_append]

/-- Replacements that agree on the symbols of a tree give the same tree. -/
theorem map_congr {first second : Symbol -> Target} {node : Node Symbol}
    (agree : forall name, name ∈ node.symbols -> first name = second name) :
    node.map first = node.map second := by
  have series (items : List (Node Symbol))
      (itemsSame : forall item, item ∈ items ->
        (forall name, name ∈ item.symbols -> first name = second name) ->
          item.map first = item.map second)
      (itemsAgree : forall name, name ∈ items.flatMap symbols -> first name = second name) :
      items.map (Node.map first) = items.map (Node.map second) :=
    List.map_congr_left fun item member => itemsSame item member fun name inItem =>
      itemsAgree name (List.mem_flatMap.2 ⟨item, member, inItem⟩)
  induction node with
  | list mark item items firstSame othersSame =>
      simp only [symbols, symbolsOfSeries_eq, List.mem_append] at agree
      simp only [map, mapSeries_eq, firstSame fun name inItem => agree name (.inl inItem),
        series items othersSame fun name inItems => agree name (.inr inItems)]
  | begin mark body bodySame =>
      simp only [symbols, symbolsOfSeries_eq] at agree
      simp only [map, mapSeries_eq, series body bodySame agree]
  | scope mark kind bindings body bindingsSame bodySame =>
      simp only [symbols, symbolsOfSeries_eq, symbolsOfBindings_eq, List.mem_append] at agree
      have replaced : mapBindings first bindings = mapBindings second bindings := by
        rw [mapBindings_eq, mapBindings_eq]
        refine List.map_congr_left fun binding member => ?_
        have inBinding (name : Symbol) (inside : name ∈ binding.2.symbols ++ [binding.1]) :=
          agree name (.inl (List.mem_flatMap.2 ⟨binding, member, inside⟩))
        rw [inBinding binding.1 (by simp), bindingsSame binding member fun name inValue =>
          inBinding name (List.mem_append_left _ inValue)]
      simp only [map, mapSeries_eq, replaced,
        series body bodySame fun name inBody => agree name (.inr inBody)]
  | lambda mark name params body bodySame =>
      simp only [symbols, symbolsOfSeries_eq, List.mem_append] at agree
      simp only [map, mapSeries_eq, series body bodySame fun name inBody => agree name (.inr inBody),
        List.map_congr_left fun name inParams => agree name (.inl inParams)]
  | recur mark args argsSame =>
      simp only [symbols, symbolsOfSeries_eq] at agree
      simp only [map, mapSeries_eq, series args argsSame agree]
  | symbol mark name => rw [map, map, agree name (List.mem_singleton.2 rfl)]
  | pair mark car cdr carSame cdrSame =>
      simp only [symbols, List.mem_append] at agree
      rw [map, map, carSame fun name inCar => agree name (.inl inCar),
        cdrSame fun name inCdr => agree name (.inr inCdr)]
  | quote mark datum datumSame => rw [map, map, datumSame agree]
  | define mark name value valueSame =>
      simp only [symbols, List.mem_cons] at agree
      rw [map, map, agree name (.inl rfl), valueSame fun other inValue => agree other (.inr inValue)]
  | conditional mark test consequent alternative testSame consequentSame alternativeSame =>
      simp only [symbols, List.mem_append] at agree
      rw [map, map, testSame fun name inTest => agree name (.inl (.inl inTest)),
        consequentSame fun name inConsequent => agree name (.inl (.inr inConsequent)),
        alternativeSame fun name inAlternative => agree name (.inr inAlternative)]
  | _ => rfl

/-- Replacing symbols replaces them in the order in which they stand. -/
theorem symbols_map (replace : Symbol -> Target) (node : Node Symbol) :
    (node.map replace).symbols = node.symbols.map replace := by
  have series (items : List (Node Symbol))
      (itemsSame : forall item, item ∈ items ->
        (item.map replace).symbols = item.symbols.map replace) :
      (items.map (Node.map replace)).flatMap symbols = (items.flatMap symbols).map replace := by
    rw [List.flatMap_map, List.map_flatMap]
    exact List.flatMap_congr itemsSame
  induction node with
  | list mark first others firstSame othersSame =>
      simp only [map, symbols, mapSeries_eq, symbolsOfSeries_eq, List.map_append, firstSame,
        series others othersSame]
  | begin mark body bodySame =>
      simp only [map, symbols, mapSeries_eq, symbolsOfSeries_eq, series body bodySame]
  | scope mark kind bindings body bindingsSame bodySame =>
      have replaced : symbolsOfBindings (mapBindings replace bindings) =
          (symbolsOfBindings bindings).map replace := by
        rw [mapBindings_eq, symbolsOfBindings_eq, symbolsOfBindings_eq, List.flatMap_map,
          List.map_flatMap]
        refine List.flatMap_congr fun binding member => ?_
        simp only [bindingsSame binding member, List.map_append, List.map_singleton]
      simp only [map, symbols, mapSeries_eq, symbolsOfSeries_eq, replaced, List.map_append,
        series body bodySame]
  | lambda mark name params body bodySame =>
      simp only [map, symbols, mapSeries_eq, symbolsOfSeries_eq, List.map_append,
        series body bodySame]
  | recur mark args argsSame =>
      simp only [map, symbols, mapSeries_eq, symbolsOfSeries_eq, series args argsSame]
  | pair mark car cdr carSame cdrSame =>
      rw [map, symbols, symbols, List.map_append, carSame, cdrSame]
  | quote mark datum datumSame => rw [map, symbols, symbols, datumSame]
  | define mark name value valueSame => rw [map, symbols, symbols, List.map_cons, valueSame]
  | conditional mark test consequent alternative testSame consequentSame alternativeSame =>
      rw [map, symbols, symbols, List.map_append, List.map_append, testSame, consequentSame,
        alternativeSame]
  | _ => rfl

/-- What a tree can end in does not depend on its symbols. -/
theorem reachesRecur_map (replace : Symbol -> Target) (node : Node Symbol) :
    (node.map replace).reachesRecur = node.reachesRecur := by
  have body (items : List (Node Symbol))
      (itemsSame : forall item, item ∈ items ->
        (item.map replace).reachesRecur = item.reachesRecur) :
      lastReachesRecur (mapSeries replace items) = lastReachesRecur items := by
    rw [mapSeries_eq]
    exact lastReachesRecur_map itemsSame
  induction node with
  | begin mark items itemsSame => exact body items itemsSame
  | conditional mark test consequent alternative _ consequentSame alternativeSame =>
      rw [reachesRecur, ← consequentSame, ← alternativeSame]
      rfl
  | scope mark kind bindings items _ itemsSame =>
      cases kind with
      | once => exact body items itemsSame
      | loop => rfl
  | _ => rfl

/-! ## Changing marks -/

mutual

/-- Changes every mark of a tree and keeps all else. -/
def remark (change : Mark -> Mark) : Node Symbol -> Node Symbol
  | integer mark value => integer (change mark) value
  | char mark value => char (change mark) value
  | string mark contents => string (change mark) contents
  | boolean mark value => boolean (change mark) value
  | symbol mark name => symbol (change mark) name
  | empty mark => empty (change mark)
  | pair mark car cdr => pair (change mark) (car.remark change) (cdr.remark change)
  | list mark first others =>
      list (change mark) (first.remark change) (remarkSeries change others)
  | quote mark datum => quote (change mark) (datum.remark change)
  | begin mark body => begin (change mark) (remarkSeries change body)
  | define mark name value => define (change mark) name (value.remark change)
  | conditional mark test consequent alternative =>
      conditional (change mark) (test.remark change) (consequent.remark change)
        (alternative.remark change)
  | scope mark kind bindings body =>
      scope (change mark) kind (remarkBindings change bindings) (remarkSeries change body)
  | lambda mark name params body => lambda (change mark) name params (remarkSeries change body)
  | recur mark args => recur (change mark) (remarkSeries change args)

def remarkSeries (change : Mark -> Mark) : List (Node Symbol) -> List (Node Symbol)
  | [] => []
  | item :: items => item.remark change :: remarkSeries change items

def remarkBindings (change : Mark -> Mark) :
    List (Symbol × Node Symbol) -> List (Symbol × Node Symbol)
  | [] => []
  | (name, value) :: bindings => (name, value.remark change) :: remarkBindings change bindings

end

@[simp] theorem remarkSeries_eq (change : Mark -> Mark) (items : List (Node Symbol)) :
    remarkSeries change items = items.map (remark change) := by
  induction items with
  | nil => rfl
  | cons item items inductionHypothesis =>
      rw [remarkSeries, inductionHypothesis, List.map_cons]

@[simp] theorem remarkBindings_eq (change : Mark -> Mark)
    (bindings : List (Symbol × Node Symbol)) :
    remarkBindings change bindings =
      bindings.map fun binding => (binding.1, binding.2.remark change) := by
  induction bindings with
  | nil => rfl
  | cons binding bindings inductionHypothesis =>
      rw [remarkBindings, inductionHypothesis, List.map_cons]

/-- The tree without its places; the tail flags stay. -/
def unplaced (node : Node Symbol) : Node Symbol :=
  node.remark fun mark => { pos := .start, tail := mark.tail }

/-- The tree without places and tail flags. -/
def bare (node : Node Symbol) : Node Symbol :=
  node.remark fun _ => .plain .start

theorem remark_remark (first second : Mark -> Mark) (node : Node Symbol) :
    (node.remark first).remark second = node.remark (second ∘ first) := by
  induction node with
  | list mark item items itemSame itemsSame => simpa [remark, itemSame] using itemsSame
  | begin mark body bodySame => simpa [remark] using bodySame
  | scope mark kind bindings body bindingsSame bodySame =>
      simpa [remark] using ⟨fun name value member => bindingsSame (name, value) member, bodySame⟩
  | lambda mark name params body bodySame => simpa [remark] using bodySame
  | recur mark args argsSame => simpa [remark] using argsSame
  | pair mark car cdr carSame cdrSame =>
      rw [remark, remark, remark, carSame, cdrSame, Function.comp]
  | quote mark datum datumSame => rw [remark, remark, remark, datumSame, Function.comp]
  | define mark name value valueSame => rw [remark, remark, remark, valueSame, Function.comp]
  | conditional mark test consequent alternative testSame consequentSame alternativeSame =>
      rw [remark, remark, remark, testSame, consequentSame, alternativeSame, Function.comp]
  | _ => rfl

theorem remark_map (change : Mark -> Mark) (replace : Symbol -> Target) (node : Node Symbol) :
    (node.map replace).remark change = (node.remark change).map replace := by
  induction node with
  | list mark item items itemSame itemsSame => simpa [remark, map, itemSame] using itemsSame
  | begin mark body bodySame => simpa [remark, map] using bodySame
  | scope mark kind bindings body bindingsSame bodySame =>
      simpa [remark, map] using
        ⟨fun name value member => bindingsSame (name, value) member, bodySame⟩
  | lambda mark name params body bodySame => simpa [remark, map] using bodySame
  | recur mark args argsSame => simpa [remark, map] using argsSame
  | pair mark car cdr carSame cdrSame => rw [map, remark, remark, map, carSame, cdrSame]
  | quote mark datum datumSame => rw [map, remark, remark, map, datumSame]
  | define mark name value valueSame => rw [map, remark, remark, map, valueSame]
  | conditional mark test consequent alternative testSame consequentSame alternativeSame =>
      rw [map, remark, remark, map, testSame, consequentSame, alternativeSame]
  | _ => rfl

/-- Marks do not show in the printed text. -/
theorem printAt_remark (change : Mark -> Mark) (name : Symbol -> Bytes) (inChain : Bool)
    (node : Node Symbol) : (node.remark change).printAt name inChain = node.printAt name inChain := by
  have series (items : List (Node Symbol))
      (itemsSame : forall item, item ∈ items -> forall inChain,
        (item.remark change).printAt name inChain = item.printAt name inChain) :
      printSeries name (items.map (remark change)) = printSeries name items := by
    rw [printSeries_eq, printSeries_eq, List.flatMap_map]
    refine List.flatMap_congr fun item member => ?_
    rw [print, print, itemsSame item member]
  induction node generalizing inChain with
  | pair mark car cdr carSame cdrSame => rw [remark, printAt, printAt, carSame, cdrSame]
  | list mark first others firstSame othersSame =>
      rw [remark, remarkSeries_eq, printAt, printAt, firstSame, series others othersSame]
  | quote mark datum datumSame => rw [remark, printAt, printAt, datumSame]
  | begin mark body bodySame =>
      rw [remark, remarkSeries_eq, printAt, printAt, series body bodySame]
  | define mark label value valueSame => rw [remark, printAt, printAt, valueSame]
  | conditional mark test consequent alternative testSame consequentSame alternativeSame =>
      rw [remark, printAt, printAt, testSame, consequentSame, alternativeSame]
  | scope mark kind bindings body bindingsSame bodySame =>
      have printed : printBindings name (remarkBindings change bindings) =
          printBindings name bindings := by
        rw [remarkBindings_eq, printBindings_eq, printBindings_eq, List.map_map]
        refine List.map_congr_left fun binding member => ?_
        simp only [Function.comp, print, bindingsSame binding member]
      rw [remark, remarkSeries_eq, printAt, printAt, printed, series body bodySame]
  | lambda mark label params body bodySame =>
      rw [remark, remarkSeries_eq, printAt, printAt, series body bodySame]
  | recur mark args argsSame =>
      rw [remark, remarkSeries_eq, printAt, printAt, series args argsSame]
  | _ => rfl

theorem symbols_remark (change : Mark -> Mark) (node : Node Symbol) :
    (node.remark change).symbols = node.symbols := by
  have series (items : List (Node Symbol))
      (itemsSame : forall item, item ∈ items -> (item.remark change).symbols = item.symbols) :
      (items.map (remark change)).flatMap symbols = items.flatMap symbols := by
    rw [List.flatMap_map]
    exact List.flatMap_congr itemsSame
  induction node with
  | list mark first others firstSame othersSame =>
      simp only [remark, symbols, remarkSeries_eq, symbolsOfSeries_eq, firstSame,
        series others othersSame]
  | begin mark body bodySame =>
      simp only [remark, symbols, remarkSeries_eq, symbolsOfSeries_eq, series body bodySame]
  | scope mark kind bindings body bindingsSame bodySame =>
      have remarked : symbolsOfBindings (remarkBindings change bindings) =
          symbolsOfBindings bindings := by
        rw [remarkBindings_eq, symbolsOfBindings_eq, symbolsOfBindings_eq, List.flatMap_map]
        refine List.flatMap_congr fun binding member => ?_
        rw [bindingsSame binding member]
      simp only [remark, symbols, remarkSeries_eq, symbolsOfSeries_eq, remarked,
        series body bodySame]
  | lambda mark name params body bodySame =>
      simp only [remark, symbols, remarkSeries_eq, symbolsOfSeries_eq, series body bodySame]
  | recur mark args argsSame =>
      simp only [remark, symbols, remarkSeries_eq, symbolsOfSeries_eq, series args argsSame]
  | pair mark car cdr carSame cdrSame => rw [remark, symbols, symbols, carSame, cdrSame]
  | quote mark datum datumSame => rw [remark, symbols, symbols, datumSame]
  | define mark name value valueSame => rw [remark, symbols, symbols, valueSame]
  | conditional mark test consequent alternative testSame consequentSame alternativeSame =>
      rw [remark, symbols, symbols, testSame, consequentSame, alternativeSame]
  | _ => rfl

/-- What a tree can end in does not depend on its marks. -/
theorem reachesRecur_remark (change : Mark -> Mark) (node : Node Symbol) :
    (node.remark change).reachesRecur = node.reachesRecur := by
  have body (items : List (Node Symbol))
      (itemsSame : forall item, item ∈ items ->
        (item.remark change).reachesRecur = item.reachesRecur) :
      lastReachesRecur (remarkSeries change items) = lastReachesRecur items := by
    rw [remarkSeries_eq]
    exact lastReachesRecur_map itemsSame
  induction node with
  | begin mark items itemsSame => exact body items itemsSame
  | conditional mark test consequent alternative _ consequentSame alternativeSame =>
      rw [reachesRecur, ← consequentSame, ← alternativeSame]
      rfl
  | scope mark kind bindings items _ itemsSame =>
      cases kind with
      | once => exact body items itemsSame
      | loop => rfl
  | _ => rfl

/-- Trees that agree but for their marks have the same symbols. -/
theorem symbols_eq_of_bare_eq {left right : Node Symbol} (agree : left.bare = right.bare) :
    left.symbols = right.symbols := by
  rw [← symbols_remark (fun _ => .plain .start) left, ← symbols_remark (fun _ => .plain .start) right]
  exact congrArg symbols agree

theorem bare_map (replace : Symbol -> Target) (node : Node Symbol) :
    (node.map replace).bare = node.bare.map replace :=
  remark_map _ _ node

/-- Trees that agree but for their places agree but for their marks. -/
theorem bare_eq_of_unplaced_eq {left right : Node Symbol} (agree : left.unplaced = right.unplaced) :
    left.bare = right.bare := by
  have erased := congrArg (remark fun _ => .plain .start) agree
  rw [unplaced, unplaced, remark_remark, remark_remark] at erased
  exact erased

/-- Sameness is agreement in everything but the marks. -/
theorem same_iff_bare_eq [DecidableEq Symbol] (left right : Node Symbol) :
    left.same right = true ↔ left.bare = right.bare := by
  have series (lefts rights : List (Node Symbol))
      (leftsSame : forall item, item ∈ lefts -> forall right : Node Symbol,
        item.same right = true ↔ item.bare = right.bare) :
      sameSeries lefts rights = true ↔ lefts.map bare = rights.map bare := by
    induction lefts generalizing rights with
    | nil => cases rights <;> simp [sameSeries]
    | cons item items inductionHypothesis =>
        cases rights with
        | nil => simp [sameSeries]
        | cons other others =>
            rw [List.forall_mem_cons] at leftsSame
            simp only [sameSeries, Bool.and_eq_true, List.map_cons, List.cons.injEq,
              leftsSame.1 other, inductionHypothesis others leftsSame.2]
  have bindings (lefts rights : List (Symbol × Node Symbol))
      (leftsSame : forall binding, binding ∈ lefts -> forall right : Node Symbol,
        binding.2.same right = true ↔ binding.2.bare = right.bare) :
      sameBindings lefts rights = true ↔
        lefts.map (fun binding => (binding.1, binding.2.bare)) =
          rights.map fun binding => (binding.1, binding.2.bare) := by
    induction lefts generalizing rights with
    | nil => cases rights <;> simp [sameBindings]
    | cons binding others inductionHypothesis =>
        cases rights with
        | nil => simp [sameBindings]
        | cons other remaining =>
            rw [List.forall_mem_cons] at leftsSame
            simp only [sameBindings, Bool.and_eq_true, beq_iff_eq, List.map_cons, List.cons.injEq,
              Prod.mk.injEq, leftsSame.1 other.2, inductionHypothesis remaining leftsSame.2]
  -- Trees of different kinds are neither the same nor equal when bare.
  induction left generalizing right with
  | integer mark value =>
      cases right with
      | integer => simp only [same, beq_iff_eq, bare, remark, integer.injEq, true_and]
      | _ => exact iff_of_false Bool.false_ne_true fun impossible => by cases impossible
  | char mark value =>
      cases right with
      | char => simp only [same, beq_iff_eq, bare, remark, char.injEq, true_and]
      | _ => exact iff_of_false Bool.false_ne_true fun impossible => by cases impossible
  | string mark contents =>
      cases right with
      | string => simp only [same, beq_iff_eq, bare, remark, string.injEq, true_and]
      | _ => exact iff_of_false Bool.false_ne_true fun impossible => by cases impossible
  | boolean mark value =>
      cases right with
      | boolean => simp only [same, beq_iff_eq, bare, remark, boolean.injEq, true_and]
      | _ => exact iff_of_false Bool.false_ne_true fun impossible => by cases impossible
  | symbol mark name =>
      cases right with
      | symbol => simp only [same, beq_iff_eq, bare, remark, symbol.injEq, true_and]
      | _ => exact iff_of_false Bool.false_ne_true fun impossible => by cases impossible
  | empty mark =>
      cases right with
      | empty => exact ⟨fun _ => rfl, fun _ => rfl⟩
      | _ => exact iff_of_false Bool.false_ne_true fun impossible => by cases impossible
  | pair mark car cdr carSame cdrSame =>
      cases right with
      | pair _ otherCar otherCdr =>
          simp only [same, Bool.and_eq_true, carSame otherCar, cdrSame otherCdr]
          simp only [bare, remark, pair.injEq, true_and]
      | _ => exact iff_of_false Bool.false_ne_true fun impossible => by cases impossible
  | list mark item items itemSame itemsSame =>
      cases right with
      | list _ other others =>
          simp only [same, Bool.and_eq_true, itemSame other, series items others itemsSame]
          simp only [bare, remark, remarkSeries_eq, list.injEq, true_and]
          rfl
      | _ => exact iff_of_false Bool.false_ne_true fun impossible => by cases impossible
  | quote mark datum datumSame =>
      cases right with
      | quote _ other =>
          simp only [same, datumSame other]
          simp only [bare, remark, quote.injEq, true_and]
      | _ => exact iff_of_false Bool.false_ne_true fun impossible => by cases impossible
  | begin mark body bodySame =>
      cases right with
      | begin _ others =>
          simp only [same, series body others bodySame]
          simp only [bare, remark, remarkSeries_eq, begin.injEq, true_and]
          rfl
      | _ => exact iff_of_false Bool.false_ne_true fun impossible => by cases impossible
  | define mark name value valueSame =>
      cases right with
      | define _ otherName other =>
          simp only [same, Bool.and_eq_true, beq_iff_eq, valueSame other]
          simp only [bare, remark, define.injEq, true_and]
      | _ => exact iff_of_false Bool.false_ne_true fun impossible => by cases impossible
  | conditional mark test consequent alternative testSame consequentSame alternativeSame =>
      cases right with
      | conditional _ otherTest otherConsequent otherAlternative =>
          simp only [same, Bool.and_eq_true, testSame otherTest, consequentSame otherConsequent,
            alternativeSame otherAlternative]
          simp only [bare, remark, conditional.injEq, true_and, and_assoc]
      | _ => exact iff_of_false Bool.false_ne_true fun impossible => by cases impossible
  | scope mark kind bound body boundSame bodySame =>
      cases right with
      | scope _ otherKind others otherBody =>
          simp only [same, Bool.and_eq_true, beq_iff_eq, bindings bound others boundSame,
            series body otherBody bodySame]
          simp only [bare, remark, remarkSeries_eq, remarkBindings_eq, scope.injEq, true_and,
            and_assoc]
          rfl
      | _ => exact iff_of_false Bool.false_ne_true fun impossible => by cases impossible
  | lambda mark name params body bodySame =>
      cases right with
      | lambda _ otherName otherParams otherBody =>
          simp only [same, Bool.and_eq_true, beq_iff_eq, series body otherBody bodySame]
          simp only [bare, remark, remarkSeries_eq, lambda.injEq, true_and, and_assoc]
          rfl
      | _ => exact iff_of_false Bool.false_ne_true fun impossible => by cases impossible
  | recur mark args argsSame =>
      cases right with
      | recur _ others =>
          simp only [same, series args others argsSame]
          simp only [bare, remark, remarkSeries_eq, recur.injEq, true_and]
          rfl
      | _ => exact iff_of_false Bool.false_ne_true fun impossible => by cases impossible

end Node

end TailLisp
