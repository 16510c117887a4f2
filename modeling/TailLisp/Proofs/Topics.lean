import Mathlib.Data.List.Perm.Basic
import TailLisp.Proofs.NodePlaces

namespace TailLisp

/-!
Outlines as trees.

An outline writes down a tree of entries, one entry on each line, and shows the
shape of the tree by the depths of the lines alone.  The entries are the nodes
outside quoted data, the names of bindings and the labels of bodies.

Such lines can be read back.  A row of topics ends where a line of less depth
follows, so the lines with their depths determine the tree
(`Topic.eq_of_rows_eq`).  And the text determines the lines as long as no entry
breaks its line or begins with a space (`OutlineLine.eq_of_render_eq`).
-/

/-- A label with the topics below it. -/
inductive Topic (Label : Type) where
  | mk (label : Label) (below : List (Topic Label))

namespace Topic

variable {Label Other : Type}

/-- Induction over a row of topics.  What stands below its first topic and what
follows that topic are rows again. -/
@[elab_as_elim]
theorem byRows {motive : List (Topic Label) -> Prop} (nil : motive [])
    (cons : forall label below topics, motive below -> motive topics ->
      motive (mk label below :: topics))
    (topics : List (Topic Label)) : motive topics :=
  @Topic.rec_1 Label (fun topic => forall topics, motive topics -> motive (topic :: topics)) motive
    (fun label below belowHolds topics topicsHold => cons label below topics belowHolds topicsHold)
    nil (fun _ topics topicHolds topicsHold => topicHolds topics topicsHold) topics

def label : Topic Label -> Label
  | mk label _ => label

mutual

/-- The labels of a topic from the top down, each with its depth. -/
def rowsAt (depth : Nat) : Topic Label -> List (Nat × Label)
  | mk label below => (depth, label) :: rowsOfSeries (depth + 1) below

def rowsOfSeries (depth : Nat) : List (Topic Label) -> List (Nat × Label)
  | [] => []
  | topic :: topics => topic.rowsAt depth ++ rowsOfSeries depth topics

end

mutual

def map (change : Label -> Other) : Topic Label -> Topic Other
  | mk label below => mk (change label) (mapSeries change below)

def mapSeries (change : Label -> Other) : List (Topic Label) -> List (Topic Other)
  | [] => []
  | topic :: topics => topic.map change :: mapSeries change topics

end

theorem rowsOfSeries_cons (depth : Nat) (label : Label) (below topics : List (Topic Label)) :
    rowsOfSeries depth (mk label below :: topics) =
      (depth, label) :: (rowsOfSeries (depth + 1) below ++ rowsOfSeries depth topics) :=
  rfl

theorem rowsOfSeries_eq (depth : Nat) (topics : List (Topic Label)) :
    rowsOfSeries depth topics = topics.flatMap (rowsAt depth) := by
  induction topics with
  | nil => rfl
  | cons topic topics inductionHypothesis =>
      rw [rowsOfSeries, inductionHypothesis, List.flatMap_cons]

theorem mapSeries_eq (change : Label -> Other) (topics : List (Topic Label)) :
    mapSeries change topics = topics.map (map change) := by
  induction topics with
  | nil => rfl
  | cons topic topics inductionHypothesis =>
      rw [mapSeries, inductionHypothesis, List.map_cons]

theorem rowsOfSeries_map (change : Label -> Other) (depth : Nat) (topics : List (Topic Label)) :
    rowsOfSeries depth (mapSeries change topics) =
      (rowsOfSeries depth topics).map fun row => (row.1, change row.2) := by
  induction topics using byRows generalizing depth with
  | nil => rfl
  | cons label below topics belowSame topicsSame =>
      rw [mapSeries, map, rowsOfSeries_cons, rowsOfSeries_cons, belowSame, topicsSame,
        List.map_cons, List.map_append]

theorem rowsAt_map (change : Label -> Other) (depth : Nat) (topic : Topic Label) :
    (topic.map change).rowsAt depth =
      (topic.rowsAt depth).map fun row => (row.1, change row.2) := by
  cases topic with
  | mk label below => rw [map, rowsAt, rowsAt, rowsOfSeries_map, List.map_cons]

/-- The labels of a topic from the top down. -/
def labelsAt (depth : Nat) (topic : Topic Label) : List Label :=
  (topic.rowsAt depth).map Prod.snd

theorem labelsAt_mk (depth : Nat) (label : Label) (below : List (Topic Label)) :
    (mk label below).labelsAt depth = label :: below.flatMap (labelsAt (depth + 1)) := by
  rw [labelsAt, rowsAt, rowsOfSeries_eq, List.map_cons, List.map_flatMap]
  rfl

/-! ## Reading a row back -/

/-- What follows a row of topics at a depth: nothing, or a line of less depth. -/
def Closes (depth : Nat) (rest : List (Nat × Label)) : Prop :=
  forall row, rest.head? = some row -> row.1 < depth

/-- The topics at a depth, and what closes their row, close what is deeper. -/
theorem Closes.deeper {depth : Nat} {rest : List (Nat × Label)} (closes : Closes depth rest)
    (topics : List (Topic Label)) : Closes (depth + 1) (rowsOfSeries depth topics ++ rest) := by
  intro row first
  cases topics with
  | nil => exact (closes row first).trans (Nat.lt_succ_self depth)
  | cons topic topics =>
      cases topic with
      | mk label below =>
          cases first
          exact Nat.lt_succ_self depth

/-- A row that goes on is not closed. -/
theorem Closes.false_of_cons {depth : Nat} {label : Label} {rest : List (Nat × Label)}
    (closes : Closes depth ((depth, label) :: rest)) : False :=
  Nat.lt_irrefl depth (closes (depth, label) rfl)

/-- Labels with their depths determine the topics, whatever closes their row. -/
theorem eq_of_rows_eq {left right : List (Topic Label)} {depth : Nat}
    {rest others : List (Nat × Label)} (closes : Closes depth rest)
    (alsoCloses : Closes depth others)
    (same : rowsOfSeries depth left ++ rest = rowsOfSeries depth right ++ others) :
    left = right ∧ rest = others := by
  induction left using byRows generalizing right depth rest others with
  | nil =>
      cases right with
      | nil => exact ⟨rfl, same⟩
      | cons topic topics =>
          cases topic with
          | mk label below =>
              change rest = _ at same
              rw [same] at closes
              exact closes.false_of_cons.elim
  | cons label below topics belowSame topicsSame =>
      cases right with
      | nil =>
          change _ = others at same
          rw [← same] at alsoCloses
          exact alsoCloses.false_of_cons.elim
      | cons topic others =>
          cases topic with
          | mk other deeper =>
              rw [rowsOfSeries_cons, rowsOfSeries_cons, List.cons_append, List.cons_append,
                List.append_assoc, List.append_assoc, List.cons.injEq, Prod.mk.injEq] at same
              rcases same with ⟨⟨_, sameLabel⟩, same⟩
              rcases belowSame (closes.deeper topics) (alsoCloses.deeper others) same with
                ⟨sameBelow, same⟩
              rcases topicsSame closes alsoCloses same with ⟨sameTopics, sameRest⟩
              rw [sameLabel, sameBelow, sameTopics]
              exact ⟨rfl, sameRest⟩

theorem eq_of_rowsAt_eq {left right : Topic Label} {depth : Nat}
    (same : left.rowsAt depth = right.rowsAt depth) : left = right := by
  have closes : Closes depth ([] : List (Nat × Label)) := nofun
  have series : rowsOfSeries depth [left] ++ [] = rowsOfSeries depth [right] ++ [] := by
    rw [rowsOfSeries_eq, rowsOfSeries_eq, List.flatMap_singleton, List.flatMap_singleton, same]
  exact List.head_eq_of_cons_eq (eq_of_rows_eq closes closes series).1

end Topic

/-! ## Reading lines back -/

/-- Bytes of one kind that come before the first byte of another kind are
determined by the whole text. -/
theorem Bytes.append_inj_of_kind {kind : UInt8 -> Bool} {left right rest others : Bytes}
    (leftKind : forall byte, byte ∈ left -> kind byte = true)
    (rightKind : forall byte, byte ∈ right -> kind byte = true)
    (stops : forall byte, rest.head? = some byte -> kind byte = false)
    (alsoStops : forall byte, others.head? = some byte -> kind byte = false)
    (same : left ++ rest = right ++ others) : left = right ∧ rest = others := by
  induction left generalizing right with
  | nil =>
      cases right with
      | nil => exact ⟨rfl, same⟩
      | cons byte right =>
          change rest = _ at same
          have stop := stops byte (by rw [same]; rfl)
          cases stop.symm.trans (rightKind byte List.mem_cons_self)
  | cons byte left inductionHypothesis =>
      cases right with
      | nil =>
          change _ = others at same
          have stop := alsoStops byte (by rw [← same]; rfl)
          cases stop.symm.trans (leftKind byte List.mem_cons_self)
      | cons other right =>
          rw [List.cons_append, List.cons_append, List.cons.injEq] at same
          rcases inductionHypothesis (List.forall_mem_cons.1 leftKind).2
            (List.forall_mem_cons.1 rightKind).2 same.2 with ⟨sameLeft, sameRest⟩
          rw [same.1, sameLeft]
          exact ⟨rfl, sameRest⟩

namespace OutlineLine

/-- The text can stand on a line: it has no line break, and its indentation ends
where the text begins. -/
structure IsText (text : Bytes) : Prop where
  unbroken : ByteClass.newline ∉ text
  nonempty : text ≠ []
  unspaced : text.head? ≠ some ' '.toUInt8

theorem IsText.newline_notMem_indented {text : Bytes} (isText : IsText text) (depth : Nat) :
    ByteClass.newline ∉ List.replicate (2 * depth) ' '.toUInt8 ++ text := by
  intro member
  rcases List.mem_append.1 member with inIndent | inText
  · cases List.eq_of_mem_replicate inIndent
  · exact isText.unbroken inText

/-- A line and what follows it are determined by the text. -/
theorem eq_of_render_append_eq {left right : OutlineLine} {rest others : Bytes}
    (leftText : IsText left.text) (rightText : IsText right.text)
    (same : left.render ++ rest = right.render ++ others) : left = right ∧ rest = others := by
  -- The line ends at the first newline, and its text begins at the first byte that is no space.
  have unbroken {text : Bytes} (isText : IsText text) (depth : Nat) :
      forall byte, byte ∈ List.replicate (2 * depth) ' '.toUInt8 ++ text ->
        decide (byte ≠ ByteClass.newline) = true := by
    intro byte member
    rw [decide_eq_true_iff]
    rintro rfl
    exact isText.newline_notMem_indented depth member
  have stops {text : Bytes} (isText : IsText text) :
      forall byte, text.head? = some byte -> decide (byte = ' '.toUInt8) = false := by
    intro byte first
    rw [decide_eq_false_iff_not]
    rintro rfl
    exact isText.unspaced first
  have indent (depth : Nat) : forall byte, byte ∈ List.replicate (2 * depth) ' '.toUInt8 ->
      decide (byte = ' '.toUInt8) = true :=
    fun byte member => decide_eq_true (List.eq_of_mem_replicate member)
  rw [render, render, List.append_assoc _ _ rest, List.append_assoc _ _ others] at same
  rcases Bytes.append_inj_of_kind (unbroken leftText left.depth) (unbroken rightText right.depth)
    (by simp) (by simp) same with ⟨sameLine, sameRest⟩
  rcases Bytes.append_inj_of_kind (indent left.depth) (indent right.depth) (stops leftText)
    (stops rightText) sameLine with ⟨sameIndent, sameText⟩
  have sameLength := congrArg List.length sameIndent
  rw [List.length_replicate, List.length_replicate] at sameLength
  have sameDepth : left.depth = right.depth := by omega
  exact ⟨congrArg₂ mk sameDepth sameText, (List.cons.inj sameRest).2⟩

theorem render_ne_nil (line : OutlineLine) : line.render ≠ [] := by
  rw [render]
  exact List.append_ne_nil_of_right_ne_nil _ (List.cons_ne_nil _ _)

/-- Lines are determined by the text that they make together. -/
theorem eq_of_render_eq {left right : List OutlineLine}
    (leftTexts : forall line, line ∈ left -> IsText line.text)
    (rightTexts : forall line, line ∈ right -> IsText line.text)
    (same : left.flatMap render = right.flatMap render) : left = right := by
  induction left generalizing right with
  | nil =>
      cases right with
      | nil => rfl
      | cons line lines => exact absurd (List.append_eq_nil_iff.1 same.symm).1 line.render_ne_nil
  | cons line lines inductionHypothesis =>
      cases right with
      | nil => exact absurd (List.append_eq_nil_iff.1 same).1 line.render_ne_nil
      | cons other others =>
          rcases List.forall_mem_cons.1 leftTexts with ⟨lineText, linesText⟩
          rcases List.forall_mem_cons.1 rightTexts with ⟨otherText, othersText⟩
          rcases eq_of_render_append_eq lineText otherText same with ⟨sameLine, sameRest⟩
          rw [sameLine, inductionHypothesis linesText othersText sameRest]

/-- A text has as many newlines as it has lines. -/
theorem count_newline_render {lines : List OutlineLine}
    (texts : forall line, line ∈ lines -> IsText line.text) :
    (lines.flatMap render).count ByteClass.newline = lines.length := by
  induction lines with
  | nil => rfl
  | cons line lines inductionHypothesis =>
      rcases List.forall_mem_cons.1 texts with ⟨lineText, linesText⟩
      rw [List.flatMap_cons, List.count_append, inductionHypothesis linesText, render,
        List.count_append, List.count_eq_zero.2 (lineText.newline_notMem_indented line.depth),
        List.count_singleton_self, List.length_cons]
      omega

end OutlineLine

/-! ## The entries of an outline -/

/-- What a line of an outline stands for. -/
inductive OutlineEntry (Symbol : Type) where
  | node (node : Node Symbol)
  | binding (name : Symbol)
  | body

namespace Node

variable {Symbol : Type}

/-- What the line of a node shows behind its caption. -/
def detail (name : Symbol -> Bytes) : Node Symbol -> Bytes
  | integer _ value => Bytes.ofText " " ++ Bytes.ofInt value.toInt
  | char _ value => Bytes.ofText " " ++ printChar value
  | string _ contents => Bytes.ofText " " ++ printString contents
  | boolean _ value => Bytes.ofText " " ++ printBoolean value
  | symbol _ label => Bytes.ofText " " ++ name label
  | quote _ datum => Bytes.ofText " " ++ datum.print name
  | define _ label _ => Bytes.ofText " " ++ name label
  | lambda _ label params _ =>
      outlineLambdaName label ++ (Bytes.ofText " " ++ printParams name params)
  | _ => []

/-- The text on the line of a node. -/
def headline (name : Symbol -> Bytes) (node : Node Symbol) : Bytes :=
  node.caption ++ node.detail name

end Node

/-- The text of a line without its indentation. -/
def OutlineEntry.text {Symbol : Type} (name : Symbol -> Bytes) : OutlineEntry Symbol -> Bytes
  | node shown => shown.headline name
  | binding label => name label ++ Bytes.ofText " ="
  | body => Bytes.ofText "body:"

namespace Node

variable {Symbol : Type}

mutual

/-- The entries of a tree.  A datum has no entries of its own; a value stands
below the name to which it is bound, and a body below its label. -/
def topic : Node Symbol -> Topic (OutlineEntry Symbol)
  | pair mark car cdr => .mk (.node (pair mark car cdr)) [car.topic, cdr.topic]
  | list mark first others => .mk (.node (list mark first others)) (first.topic :: topics others)
  | begin mark body => .mk (.node (begin mark body)) (topics body)
  | define mark name value => .mk (.node (define mark name value)) [value.topic]
  | conditional mark test consequent alternative =>
      .mk (.node (conditional mark test consequent alternative))
        [test.topic, consequent.topic, alternative.topic]
  | scope mark kind bindings body =>
      .mk (.node (scope mark kind bindings body))
        (topicsOfBindings bindings ++ [.mk .body (topics body)])
  | lambda mark name params body =>
      .mk (.node (lambda mark name params body)) [.mk .body (topics body)]
  | recur mark args => .mk (.node (recur mark args)) (topics args)
  | single => .mk (.node single) []

def topics : List (Node Symbol) -> List (Topic (OutlineEntry Symbol))
  | [] => []
  | item :: items => item.topic :: topics items

def topicsOfBindings : List (Symbol × Node Symbol) -> List (Topic (OutlineEntry Symbol))
  | [] => []
  | (name, value) :: bindings => .mk (.binding name) [value.topic] :: topicsOfBindings bindings

end

theorem topics_eq (items : List (Node Symbol)) : topics items = items.map topic := by
  induction items with
  | nil => rfl
  | cons item items inductionHypothesis => rw [topics, inductionHypothesis, List.map_cons]

theorem topicsOfBindings_eq (bindings : List (Symbol × Node Symbol)) :
    topicsOfBindings bindings =
      bindings.map fun binding => .mk (.binding binding.1) [binding.2.topic] := by
  induction bindings with
  | nil => rfl
  | cons binding bindings inductionHypothesis =>
      rw [topicsOfBindings, inductionHypothesis, List.map_cons]

end Node

/-- The lines of a topic whose label stands at a depth. -/
def Topic.linesAt {Symbol : Type} (name : Symbol -> Bytes) (depth : Nat)
    (topic : Topic (OutlineEntry Symbol)) : List OutlineLine :=
  (topic.rowsAt depth).map fun row => { depth := row.1, text := row.2.text name }

theorem Topic.linesAt_mk {Symbol : Type} (name : Symbol -> Bytes) (depth : Nat)
    (entry : OutlineEntry Symbol) (below : List (Topic (OutlineEntry Symbol))) :
    (mk entry below).linesAt name depth =
      { depth, text := entry.text name } :: below.flatMap (linesAt name (depth + 1)) := by
  rw [linesAt, rowsAt, rowsOfSeries_eq, List.map_cons, List.map_flatMap]
  rfl

namespace Node

variable {Symbol : Type}

/-- An outline has the lines of its topic. -/
theorem outlineAt_eq (name : Symbol -> Bytes) (depth : Nat) (node : Node Symbol) :
    node.outlineAt name depth = node.topic.linesAt name depth := by
  have series (depth : Nat) (items : List (Node Symbol))
      (itemsSame : forall item, item ∈ items -> forall depth,
        item.outlineAt name depth = item.topic.linesAt name depth) :
      outlineSeries name depth items = (topics items).flatMap (Topic.linesAt name depth) := by
    rw [outlineSeries_eq, topics_eq, List.flatMap_map]
    exact List.flatMap_congr fun item member => itemsSame item member depth
  induction node generalizing depth with
  | pair mark car cdr carSame cdrSame =>
      rw [outlineAt, topic, Topic.linesAt_mk, carSame, cdrSame]
      simp [OutlineEntry.text, headline, detail]
  | list mark first others firstSame othersSame =>
      rw [outlineAt, topic, Topic.linesAt_mk, firstSame, series _ others othersSame]
      simp [OutlineEntry.text, headline, detail]
  | begin mark body bodySame =>
      rw [outlineAt, topic, Topic.linesAt_mk, series _ body bodySame]
      simp [OutlineEntry.text, headline, detail]
  | define mark label value valueSame =>
      rw [outlineAt, topic, Topic.linesAt_mk, valueSame]
      simp [OutlineEntry.text, headline, detail]
  | conditional mark test consequent alternative testSame consequentSame alternativeSame =>
      rw [outlineAt, topic, Topic.linesAt_mk, testSame, consequentSame, alternativeSame]
      simp [OutlineEntry.text, headline, detail]
  | scope mark kind bindings body bindingsSame bodySame =>
      have bound : outlineBindings name (depth + 1) bindings =
          (topicsOfBindings bindings).flatMap (Topic.linesAt name (depth + 1)) := by
        rw [outlineBindings_eq, topicsOfBindings_eq, List.flatMap_map]
        refine List.flatMap_congr fun binding member => ?_
        rw [outlineBinding, Topic.linesAt_mk, bindingsSame binding member, List.flatMap_singleton]
        rfl
      rw [outlineAt, topic, Topic.linesAt_mk, List.flatMap_append, List.flatMap_singleton,
        Topic.linesAt_mk, bound, series _ body bodySame]
      simp [OutlineEntry.text, headline, detail, bodyLine]
  | lambda mark label params body bodySame =>
      rw [outlineAt, topic, Topic.linesAt_mk, List.flatMap_singleton, Topic.linesAt_mk,
        series _ body bodySame]
      simp [OutlineEntry.text, headline, detail, bodyLine]
  | recur mark args argsSame =>
      rw [outlineAt, topic, Topic.linesAt_mk, series _ args argsSame]
      simp [OutlineEntry.text, headline, detail]
  | _ => simp [outlineAt, topic, Topic.linesAt_mk, OutlineEntry.text, headline, detail]

/-! ## The number of lines -/

mutual

/-- The nodes of a tree outside quoted data, each before its children. -/
def shown : Node Symbol -> List (Node Symbol)
  | pair mark car cdr => pair mark car cdr :: (car.shown ++ cdr.shown)
  | list mark first others => list mark first others :: (first.shown ++ shownOfSeries others)
  | begin mark body => begin mark body :: shownOfSeries body
  | define mark name value => define mark name value :: value.shown
  | conditional mark test consequent alternative =>
      conditional mark test consequent alternative ::
        (test.shown ++ (consequent.shown ++ alternative.shown))
  | scope mark kind bindings body =>
      scope mark kind bindings body :: (shownOfBindings bindings ++ shownOfSeries body)
  | lambda mark name params body => lambda mark name params body :: shownOfSeries body
  | recur mark args => recur mark args :: shownOfSeries args
  | single => [single]

def shownOfSeries : List (Node Symbol) -> List (Node Symbol)
  | [] => []
  | item :: items => item.shown ++ shownOfSeries items

def shownOfBindings : List (Symbol × Node Symbol) -> List (Node Symbol)
  | [] => []
  | (_, value) :: bindings => value.shown ++ shownOfBindings bindings

end

theorem shownOfSeries_eq (items : List (Node Symbol)) :
    shownOfSeries items = items.flatMap shown := by
  induction items with
  | nil => rfl
  | cons item items inductionHypothesis =>
      rw [shownOfSeries, inductionHypothesis, List.flatMap_cons]

theorem shownOfBindings_eq (bindings : List (Symbol × Node Symbol)) :
    shownOfBindings bindings = (bindings.map Prod.snd).flatMap shown := by
  induction bindings with
  | nil => rfl
  | cons binding bindings inductionHypothesis =>
      rw [shownOfBindings, inductionHypothesis, List.map_cons, List.flatMap_cons]

/-- The children that have lines of their own. -/
def listed : Node Symbol -> List (Node Symbol)
  | quote _ _ => []
  | node => node.children

@[simp] theorem listed_list (mark : Mark) (first : Node Symbol) (others : List (Node Symbol)) :
    (list mark first others).listed = first :: others :=
  children_list mark first others

@[simp] theorem listed_begin (mark : Mark) (body : List (Node Symbol)) :
    (begin mark body).listed = body :=
  children_begin mark body

@[simp] theorem listed_scope (mark : Mark) (kind : ScopeKind)
    (bindings : List (Symbol × Node Symbol)) (body : List (Node Symbol)) :
    (scope mark kind bindings body).listed = bindings.map Prod.snd ++ body :=
  children_scope mark kind bindings body

@[simp] theorem listed_lambda (mark : Mark) (name : Option Bytes) (params : List Symbol)
    (body : List (Node Symbol)) : (lambda mark name params body).listed = body :=
  children_lambda mark name params body

@[simp] theorem listed_recur (mark : Mark) (args : List (Node Symbol)) :
    (recur mark args).listed = args :=
  children_recur mark args

theorem mem_children_of_mem_listed {node child : Node Symbol} (member : child ∈ node.listed) :
    child ∈ node.children := by
  cases node with
  | quote mark datum => cases member
  | _ => exact member

theorem shown_eq (node : Node Symbol) : node.shown = node :: node.listed.flatMap shown := by
  cases node with
  | list mark first others => rw [shown, shownOfSeries_eq, listed_list, List.flatMap_cons]
  | begin mark body => rw [shown, shownOfSeries_eq, listed_begin]
  | scope mark kind bindings body =>
      rw [shown, shownOfSeries_eq, shownOfBindings_eq, listed_scope, List.flatMap_append]
  | lambda mark name params body => rw [shown, shownOfSeries_eq, listed_lambda]
  | recur mark args => rw [shown, shownOfSeries_eq, listed_recur]
  | quote mark datum => rfl
  | _ => simp [shown, listed, children, parts]

/-- The lines that a node has for itself: its own line, one for each name that it
binds, and one for the label of its body. -/
def entries : Node Symbol -> List (OutlineEntry Symbol)
  | scope mark kind bindings body =>
      .node (scope mark kind bindings body) ::
        (bindings.map (fun binding => .binding binding.1) ++ [.body])
  | lambda mark name params body => [.node (lambda mark name params body), .body]
  | single => [.node single]

/-- A node that has only its own line stands right above its children. -/
theorem topic_eq_of_entries {node : Node Symbol} (single : node.entries = [.node node]) :
    node.topic = .mk (.node node) (node.listed.map topic) := by
  cases node with
  | list mark first others => rw [topic, topics_eq, listed_list, List.map_cons]
  | begin mark body => rw [topic, topics_eq, listed_begin]
  | recur mark args => rw [topic, topics_eq, listed_recur]
  | scope mark kind bindings body => simp [entries] at single
  | lambda mark name params body => simp [entries] at single
  | _ => rfl

/-- Apart from their order, the entries of a tree are those of the nodes outside
quoted data, each taken once. -/
theorem labelsAt_topic_perm (depth : Nat) (node : Node Symbol) :
    (node.topic.labelsAt depth).Perm (node.shown.flatMap entries) := by
  -- A series is taken apart in the same way wherever it stands.
  have series (depth : Nat) {items : List (Node Symbol)}
      (itemsSame : forall item, item ∈ items -> forall depth,
        (item.topic.labelsAt depth).Perm (item.shown.flatMap entries)) :
      ((items.map topic).flatMap (Topic.labelsAt depth)).Perm
        ((items.flatMap shown).flatMap entries) := by
    rw [List.flatMap_map, List.flatMap_assoc]
    exact List.Perm.flatMap_left items fun item member => itemsSame item member depth
  induction node using byChildren generalizing depth with
  | step node inductionHypothesis =>
      have below : forall item, item ∈ node.listed -> forall depth,
          (item.topic.labelsAt depth).Perm (item.shown.flatMap entries) :=
        fun item member depth => inductionHypothesis item (mem_children_of_mem_listed member) depth
      have plain (single : node.entries = [.node node]) :
          (node.topic.labelsAt depth).Perm (node.shown.flatMap entries) := by
        rw [topic_eq_of_entries single, Topic.labelsAt_mk, shown_eq, List.flatMap_cons, single]
        exact (series (depth + 1) below).cons _
      cases node with
      | lambda mark name params body =>
          rw [listed_lambda] at below
          rw [topic, topics_eq, Topic.labelsAt_mk, List.flatMap_singleton, Topic.labelsAt_mk, shown,
            shownOfSeries_eq, List.flatMap_cons]
          exact ((series (depth + 2) below).cons _).cons _
      | scope mark kind bindings body =>
          rw [listed_scope, List.forall_mem_append] at below
          have bound : (topicsOfBindings bindings).flatMap (Topic.labelsAt (depth + 1)) =
              bindings.flatMap fun binding =>
                .binding binding.1 :: binding.2.topic.labelsAt (depth + 2) := by
            rw [topicsOfBindings_eq, List.flatMap_map]
            refine List.flatMap_congr fun binding _ => ?_
            rw [Topic.labelsAt_mk, List.flatMap_singleton]
          have inValues := series (depth + 2) below.1
          rw [List.map_map, List.flatMap_map, ← shownOfBindings_eq] at inValues
          rw [topic, topics_eq, Topic.labelsAt_mk, List.flatMap_append, bound,
            List.flatMap_singleton, Topic.labelsAt_mk, shown, shownOfSeries_eq, List.flatMap_cons,
            List.flatMap_append, entries, List.cons_append]
          apply List.Perm.cons
          -- The names come first, then the label, then what stands below them.
          refine ((List.map_append_flatMap_perm bindings _ _).symm.append_right _).trans ?_
          rw [List.append_assoc, List.append_assoc]
          refine List.Perm.append_left _ (List.perm_middle.trans (List.Perm.cons _ ?_))
          exact inValues.append (series (depth + 2) below.2)
      | _ => exact plain rfl

end Node

end TailLisp
