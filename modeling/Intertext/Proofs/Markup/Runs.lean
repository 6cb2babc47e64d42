import Intertext.Proofs.Markup.Edges
import Intertext.Proofs.Markup.Spelling
import Intertext.Proofs.Markup.Tokens
/-!
What reading keeps of the characters.

Between two tags of a text stands a run of characters: what the character data and the CDATA
sections there stand for, one after the other. A tree keeps a string behind every edge of an
element, its text where it begins and its tail where it ends (`Node.runs`). The strings of a
document that was read are the runs behind the tags of its text, from the start tag of the root to
its end tag, each behind the edge that its tag makes (`runs_of_parse`). So each run is kept once,
in the text of the element around it or in the tail of the element before it, and nothing else is
kept; and the characters of the root are the runs one after the other.

While a document is being read, the last edge is the only one whose string may still grow
(`Reading.Grows`).
-/

namespace Intertext.Markup

open Outcome (bind_eq_ok mapError_eq_ok)

/-! ## 1. Runs of tokens

A tag begins a new run, and everything that is no tag goes on with the one there is. The runs of
tokens are listed with the edges that their tags make, for which the numbers of the open elements
are kept. -/

namespace Token

/-- Whether a token is a tag. -/
def isTag : Token → Bool
  | start _ | empty _ | close _ => true
  | text _ | cdata _ | aside => false

/-- The characters a token stands for; none if its references are not sound. -/
def characters : Token → List Char
  | text raw => (Text.expand raw).toOption.getD []
  | cdata raw => raw
  | aside | start _ | empty _ | close _ => []

/-- The run of characters before the next tag. -/
def run (tokens : List Token) : String :=
  String.ofList ((tokens.takeWhile (!·.isTag)).flatMap characters)

/-- The edges that tags make, each with the run behind its tag. Start tags are numbered from
`count` on, and `opened` are the numbers of the elements that are open, innermost first. -/
def runs (count : Nat) (opened : List Nat) : List Token → List (Edge × String)
  | [] => []
  | start _ :: rest => (.opening count, run rest) :: runs (count + 1) (count :: opened) rest
  | empty _ :: rest =>
    (.opening count, "") :: (.closing count, run rest) :: runs (count + 1) opened rest
  | close _ :: rest => (.closing (opened.headD 0), run rest) :: runs count opened.tail rest
  | text _ :: rest | cdata _ :: rest | aside :: rest => runs count opened rest

/-- At a tag the run is over. -/
theorem run_cons_of_isTag {token : Token} (isTag : token.isTag = true) (rest : List Token) :
    run (token :: rest) = "" := by
  rw [run, List.takeWhile_cons_of_neg (by simp [isTag])]
  rfl

/-- What is no tag adds its characters to the run. -/
theorem run_cons {token : Token} (noTag : token.isTag = false) (rest : List Token) :
    run (token :: rest) = String.ofList token.characters ++ run rest := by
  rw [run, List.takeWhile_cons_of_pos (by simp [noTag]), List.flatMap_cons, String.ofList_append]
  rfl

/-- What is no tag begins no run. -/
theorem runs_cons {token : Token} (noTag : token.isTag = false) (count : Nat) (opened : List Nat)
    (rest : List Token) : runs count opened (token :: rest) = runs count opened rest := by
  cases token with
  | text _ | cdata _ | aside => rfl
  | start _ | empty _ | close _ => cases noTag

/-- No character is in no run. -/
theorem characters_runs : ∀ (tokens : List Token) (count : Nat) (opened : List Nat),
    (run tokens).toList ++ (runs count opened tokens).flatMap (·.2.toList) =
      tokens.flatMap characters
  | [], _, _ => rfl
  | token :: rest, count, opened => by
    have below := characters_runs rest
    by_cases isTag : token.isTag = true
    · rw [run_cons_of_isTag isTag]
      cases token with
      | start _ | empty _ | close _ => simp [runs, characters, below]
      | text _ | cdata _ | aside => cases isTag
    · rw [Bool.not_eq_true] at isTag
      rw [run_cons isTag, runs_cons isTag, String.toList_append, String.toList_ofList,
        List.append_assoc, below, List.flatMap_cons]

end Token

/-! ## 2. Runs of trees

A tree has two edges for each node, and the strings behind them are its text and its tail. The edges
are in the order of the tags that would make them. -/

namespace Node

mutual

/-- The edges of a node and of everything below it, each with the string that is kept behind it. -/
def runs : Node → List (Edge × String)
  | ⟨id, _, _, _, text, children, tail⟩ =>
    (.opening id, text) :: (forestRuns children ++ [(.closing id, tail)])

/-- The edges of the nodes of a forest, each with the string that is kept behind it. -/
def forestRuns : List Node → List (Edge × String)
  | [] => []
  | first :: rest => runs first ++ forestRuns rest

end

/-- The runs of a tree are the text of its root, the runs below it and its tail. -/
theorem runs_eq (node : Node) :
    node.runs = (.opening node.id, node.text) ::
      (forestRuns node.children ++ [(.closing node.id, node.tail)]) := by
  cases node
  rfl

theorem forestRuns_append (first rest : List Node) :
    forestRuns (first ++ rest) = forestRuns first ++ forestRuns rest := by
  induction first with
  | nil => rfl
  | cons node first ih => rw [List.cons_append, forestRuns, ih, forestRuns, List.append_assoc]

mutual

theorem map_fst_runs : ∀ node : Node, node.runs.map (·.1) = node.edges
  | ⟨id, path, name, attributes, text, children, tail⟩ => by
    rw [runs, edges]
    simp [map_fst_forestRuns children]

theorem map_fst_forestRuns : ∀ nodes : List Node, (forestRuns nodes).map (·.1) = forestEdges nodes
  | [] => rfl
  | first :: rest => by
    rw [forestRuns, forestEdges, List.map_append, map_fst_runs first, map_fst_forestRuns rest]

end

mutual

/-- Behind the edges of every node its text and its tail are kept. -/
theorem mem_runs {inner : Node} : ∀ {node : Node}, inner ∈ node.preorder →
    (.opening inner.id, inner.text) ∈ node.runs ∧ (.closing inner.id, inner.tail) ∈ node.runs
  | ⟨id, path, name, attributes, text, children, tail⟩, h => by
    rw [preorder_eq] at h
    rw [runs]
    rcases List.mem_cons.mp h with rfl | below
    · simp
    · obtain ⟨first, last⟩ := mem_forestRuns below
      exact ⟨List.mem_cons_of_mem _ (List.mem_append_left _ first),
        List.mem_cons_of_mem _ (List.mem_append_left _ last)⟩

/-- The text and the tail of a node in a forest are among its runs. -/
theorem mem_forestRuns {inner : Node} : ∀ {nodes : List Node}, inner ∈ forestPreorder nodes →
    (.opening inner.id, inner.text) ∈ forestRuns nodes ∧
      (.closing inner.id, inner.tail) ∈ forestRuns nodes
  | [], h => by simp at h
  | first :: rest, h => by
    rw [forestPreorder_cons] at h
    rw [forestRuns]
    rcases List.mem_append.mp h with h | h
    · exact (mem_runs h).imp (List.mem_append_left _) (List.mem_append_left _)
    · exact (mem_forestRuns h).imp (List.mem_append_right _) (List.mem_append_right _)

end

mutual

/-- The characters of a node and its tail are all that is kept behind its edges. -/
theorem toList_characters : ∀ node : Node,
    node.toElement.characters.toList ++ node.tail.toList = node.runs.flatMap (·.2.toList)
  | ⟨id, path, name, attributes, text, children, tail⟩ => by
    rw [runs, toElement, Element.characters]
    simp [toList_forestCharacters children]

/-- The characters of a forest are its runs, one after another. -/
theorem toList_forestCharacters : ∀ nodes : List Node,
    (Element.forestCharacters (toElements nodes)).toList = (forestRuns nodes).flatMap (·.2.toList)
  | [] => rfl
  | first :: rest => by
    have tail : first.toElement.tail = first.tail := by
      cases first
      rfl
    rw [toElements, Element.forestCharacters, forestRuns, List.flatMap_append,
      ← toList_characters first, ← toList_forestCharacters rest, tail]
    simp

end

end Node

/-! ## 3. Runs that grow

An open element has runs already, up to the edge that was passed last. Text goes to the string
behind this edge wherever it is kept, so that a state can be told by the runs that are done, the
last edge, and what is held behind it. -/

namespace OpenElement

/-- The edges of an open element and of what has been finished in it, each with the string that is
kept behind it. -/
def runs (element : OpenElement) : List (Edge × String) :=
  (.opening element.id, element.text) :: Node.forestRuns element.children.reverse

theorem runs_close (element : OpenElement) :
    element.close.runs = element.runs ++ [(.closing element.id, "")] := rfl

/-- The runs of a child come after those of its parent's earlier children. -/
theorem runs_push (element : OpenElement) (child : Node) :
    (element.push child).runs = element.runs ++ child.runs := by
  simp [push, runs, Node.forestRuns_append, Node.forestRuns]

/-- Text does not change the number of an element. -/
theorem id_pushText (element : OpenElement) (text : String) :
    (element.pushText text).id = element.id :=
  (element.tag_pushText text).1

/-- Character data goes to the string behind the last edge. -/
theorem exists_runs_pushText (element : OpenElement) :
    ∃ passed edge held, element.runs = passed ++ [(edge, held)] ∧
      ∀ text, (element.pushText text).runs = passed ++ [(edge, held ++ text)] := by
  obtain ⟨id, path, name, written, attributes, own, children, scope⟩ := element
  cases children with
  | nil => exact ⟨[], .opening id, own, rfl, fun text => rfl⟩
  | cons last earlier =>
    refine ⟨(.opening id, own) :: (Node.forestRuns earlier.reverse ++
      (.opening last.id, last.text) :: Node.forestRuns last.children), .closing last.id, last.tail,
      ?_, fun text => ?_⟩ <;>
    simp [runs, pushText, Node.forestRuns_append, Node.forestRuns, Node.runs_eq]

end OpenElement

namespace Reading

variable {state next last : Reading} {passed : List (Edge × String)} {edge : Edge} {held : String}

/-- Whether something is open, what is kept behind all edges but the last, and what is kept behind
that one so far. -/
structure Grows (state : Reading) (passed : List (Edge × String)) (edge : Edge) (held : String) :
    Prop where
  nested : state.stack ≠ []
  runs : state.stack.reverse.flatMap OpenElement.runs = passed ++ [(edge, held)]

/-- The numbers of the open elements, innermost first. -/
def opened (state : Reading) : List Nat := state.stack.map (·.id)

/-- Text opens no element. -/
theorem opened_addText (state : Reading) (text : String) :
    (state.addText text).opened = state.opened := by
  obtain ⟨stack, root, count, namespaces⟩ := state
  cases stack with
  | nil => rfl
  | cons innermost outer => simp [addText, opened, OpenElement.id_pushText]

/-- Outside the root text is dropped. -/
theorem addText_of_stack_eq_nil (outside : state.stack = []) (text : String) :
    state.addText text = state := by
  unfold addText
  rw [outside]

/-- Text is held behind the last edge. -/
theorem Grows.addText (grows : state.Grows passed edge held) (text : String) :
    (state.addText text).Grows passed edge (held ++ text) := by
  obtain ⟨stack, root, count, namespaces⟩ := state
  cases stack with
  | nil => exact absurd rfl grows.nested
  | cons innermost outer =>
    obtain ⟨before, lastEdge, lastHeld, whole, pushed⟩ := innermost.exists_runs_pushText
    have same := grows.runs
    rw [List.reverse_cons, List.flatMap_append, List.flatMap_singleton, whole,
      ← List.append_assoc] at same
    obtain ⟨rfl, isLast⟩ := List.append_inj' same rfl
    cases List.singleton_inj.mp isLast
    refine ⟨List.cons_ne_nil _ _, ?_⟩
    rw [Reading.addText, List.reverse_cons, List.flatMap_append, List.flatMap_singleton, pushed,
      List.append_assoc]

/-- A start tag makes the next edge, and the run before it is done. -/
theorem Grows.enter {raw : List Char} (grows : state.Grows passed edge held)
    (h : state.enter raw = .ok next) :
    next.Grows (passed ++ [(edge, held)]) (.opening state.count) "" ∧
      next.opened = state.count :: state.opened ∧ next.count = state.count + 1 := by
  obtain ⟨scope, name, path, attributes, namespaces, -, -, rfl⟩ := enter_eq_ok h
  refine ⟨⟨List.cons_ne_nil _ _, ?_⟩, rfl, rfl⟩
  rw [List.reverse_cons, List.flatMap_append, grows.runs]
  rfl

/-- The start tag of the root makes the first edge. -/
theorem grows_enter {raw : List Char} (outside : state.stack = [])
    (h : state.enter raw = .ok next) :
    next.Grows [] (.opening state.count) "" ∧ next.opened = [state.count] ∧
      next.count = state.count + 1 := by
  obtain ⟨scope, name, path, attributes, namespaces, -, -, rfl⟩ := enter_eq_ok h
  rw [outside]
  exact ⟨⟨List.cons_ne_nil _ _, rfl⟩, rfl, rfl⟩

/-- Where an element is closed inside another one, its tail begins. -/
theorem Grows.leave_inside {innermost parent : OpenElement} {outer : List OpenElement}
    (grows : state.Grows passed edge held) (isStack : state.stack = innermost :: parent :: outer) :
    state.leave.Grows (passed ++ [(edge, held)]) (.closing innermost.id) "" ∧
      state.leave.opened = parent.id :: outer.map (·.id) := by
  obtain ⟨stack, root, count, namespaces⟩ := state
  obtain rfl : stack = innermost :: parent :: outer := isStack
  refine ⟨⟨List.cons_ne_nil _ _, ?_⟩, rfl⟩
  rw [← grows.runs]
  simp [Reading.leave, OpenElement.runs_push, OpenElement.runs_close]

/-- Where the outermost element is closed, the root is finished. -/
theorem Grows.leave_outermost {outermost : OpenElement} (grows : state.Grows passed edge held)
    (isStack : state.stack = [outermost]) :
    state.leave.stack = [] ∧ ∃ root, state.leave.root = some root ∧
      root.runs = passed ++ [(edge, held), (.closing outermost.id, "")] := by
  obtain ⟨stack, root, count, namespaces⟩ := state
  obtain rfl : stack = [outermost] := isStack
  have whole := grows.runs
  simp only [List.reverse_singleton, List.flatMap_singleton] at whole
  refine ⟨rfl, outermost.close, rfl, ?_⟩
  rw [OpenElement.runs_close, whole, List.append_assoc]
  rfl

/-! ## 4. What tokens add

Tokens before the start tag of the root and after its end tag give no characters. In between, each
token either adds to the run behind the last edge or makes the next edge. -/

/-- Adding no text changes nothing. -/
theorem addText_empty (state : Reading) : state.addText "" = state := by
  obtain ⟨stack, root, count, namespaces⟩ := state
  cases stack with
  | nil => rfl
  | cons innermost outer => simp only [addText, OpenElement.pushText_empty]

/-- A token that is no tag adds the characters it stands for. -/
theorem step_of_isTag_eq_false {token : Token} (noTag : token.isTag = false)
    (h : state.step token = .ok next) : next = state.addText (String.ofList token.characters) := by
  cases token with
  | start _ | empty _ | close _ => cases noTag
  | cdata raw =>
    cases h
    rfl
  | aside =>
    cases h
    exact (addText_empty state).symm
  | text raw =>
    obtain ⟨characters, expanded, h⟩ := bind_eq_ok.mp h
    cases h
    rw [Token.characters, mapError_eq_ok.mp expanded]
    rfl

/-- After the root there are no tags. -/
theorem foldlM_after : ∀ {tokens : List Token} {state last : Reading}, state.stack = [] →
    state.root.isSome → tokens.foldlM Reading.step state = .ok last →
    (∀ token ∈ tokens, token.isTag = false) ∧ last.root = state.root
  | [], state, last, _, _, ran => by
    cases ran
    exact ⟨fun _ none => (List.not_mem_nil none).elim, rfl⟩
  | token :: rest, state, last, outside, closed, ran => by
    obtain ⟨next, stepped, ranRest⟩ := bind_eq_ok.mp ran
    have refused {raw : List Char} {opened : Reading} (entered : state.enter raw = .ok opened) :
        False := by
      obtain ⟨scope, name, path, attributes, namespaces, -, placed, -⟩ := enter_eq_ok entered
      obtain ⟨root, isRoot⟩ := Option.isSome_iff_exists.mp closed
      rw [pathOf, outside, isRoot] at placed
      cases placed
    have noTag : token.isTag = false := by
      cases token with
      | text _ | cdata _ | aside => rfl
      | start raw => exact (refused stepped).elim
      | empty raw =>
        obtain ⟨opened, entered, -⟩ := bind_eq_ok.mp stepped
        exact (refused entered).elim
      | close raw =>
        obtain ⟨innermost, outer, isStack, -⟩ := closeTag_eq_ok stepped
        rw [outside] at isStack
        cases isStack
    obtain rfl : next = state := by
      rw [step_of_isTag_eq_false noTag stepped, addText_of_stack_eq_nil outside]
    obtain ⟨noTags, same⟩ := foldlM_after outside closed ranRest
    exact ⟨List.forall_mem_cons.mpr ⟨noTag, noTags⟩, same⟩

/-- Inside the root every tag begins a string, except the one that closes the root. -/
theorem Grows.step_tag {token : Token} (grows : state.Grows passed edge held)
    (isTag : token.isTag = true) (stepped : state.step token = .ok next) :
    (∃ made begun, next.Grows (passed ++ (edge, held) :: made) begun "" ∧
      ∀ rest, Token.runs state.count state.opened (token :: rest) =
        made ++ (begun, Token.run rest) :: Token.runs next.count next.opened rest) ∨
    next.stack = [] ∧ ∃ root, next.root = some root ∧
      root.runs = passed ++ (edge, held) :: Token.runs state.count state.opened [token] := by
  cases token with
  | text _ | cdata _ | aside => cases isTag
  | start raw =>
    obtain ⟨grown, opened, count⟩ := grows.enter stepped
    refine Or.inl ⟨[], _, grown, fun rest => ?_⟩
    rw [opened, count]
    rfl
  | empty raw =>
    obtain ⟨between, entered, left⟩ := bind_eq_ok.mp stepped
    cases left
    obtain ⟨parent, outer, isStack⟩ := List.exists_cons_of_ne_nil grows.nested
    obtain ⟨grown, -, count⟩ := grows.enter entered
    obtain ⟨scope, name, path, attributes, namespaces, -, -, rfl⟩ := enter_eq_ok entered
    rw [isStack] at grown ⊢
    obtain ⟨closed, opened⟩ := grown.leave_inside rfl
    rw [List.append_assoc] at closed
    refine Or.inl ⟨[(.opening state.count, "")], .closing state.count, closed, fun rest => ?_⟩
    rw [opened, count_leave, Reading.opened, isStack]
    rfl
  | close raw =>
    obtain ⟨innermost, outer, isStack, rfl⟩ := closeTag_eq_ok stepped
    cases outer with
    | nil =>
      obtain ⟨outside, root, isRoot, whole⟩ := grows.leave_outermost isStack
      refine Or.inr ⟨outside, root, isRoot, ?_⟩
      rw [whole, opened, isStack]
      rfl
    | cons parent outer =>
      obtain ⟨closed, opened⟩ := grows.leave_inside isStack
      refine Or.inl ⟨[], .closing innermost.id, closed, fun rest => ?_⟩
      rw [opened, count_leave, Reading.opened, isStack]
      rfl

/-- Inside the root the run behind each tag fills the string that the tag begins. -/
theorem Grows.foldlM : ∀ {tokens : List Token} {state last : Reading}
    {passed : List (Edge × String)} {edge : Edge} {held : String},
    state.Grows passed edge held → last.stack = [] → tokens.foldlM Reading.step state = .ok last →
    ∃ inner epilog, tokens = inner ++ epilog ∧ (∀ token ∈ epilog, token.isTag = false) ∧
      (∃ tag, inner.getLast? = some tag ∧ tag.isTag = true) ∧
      ∃ root, last.root = some root ∧ root.runs =
        passed ++ (edge, held ++ Token.run inner) :: Token.runs state.count state.opened inner
  | [], state, last, passed, edge, held, grows, outside, ran => by
    cases ran
    exact absurd outside grows.nested
  | token :: rest, state, last, passed, edge, held, grows, outside, ran => by
    obtain ⟨next, stepped, ran⟩ := bind_eq_ok.mp ran
    have onward {inner : List Token} (ends : ∃ tag, inner.getLast? = some tag ∧ tag.isTag = true) :
        ∃ tag, (token :: inner).getLast? = some tag ∧ tag.isTag = true := by
      obtain ⟨tag, isLast, isTag⟩ := ends
      refine ⟨tag, ?_, isTag⟩
      rw [List.getLast?_cons, isLast]
      rfl
    cases isTag : token.isTag with
    | false =>
      have added := step_of_isTag_eq_false isTag stepped
      have grown := grows.addText (String.ofList token.characters)
      rw [← added] at grown
      obtain ⟨inner, epilog, rfl, noTags, ends, root, isRoot, whole⟩ := grown.foldlM outside ran
      refine ⟨token :: inner, epilog, rfl, noTags, onward ends, root, isRoot, ?_⟩
      rw [whole, Token.run_cons isTag, Token.runs_cons isTag, added, opened_addText,
        count_addText, String.append_assoc]
    | true =>
      rcases grows.step_tag isTag stepped with
        ⟨made, begun, grown, runs⟩ | ⟨closed, root, isRoot, whole⟩
      · obtain ⟨inner, epilog, rfl, noTags, ends, root, isRoot, whole⟩ := grown.foldlM outside ran
        refine ⟨token :: inner, epilog, rfl, noTags, onward ends, root, isRoot, ?_⟩
        rw [whole, runs, Token.run_cons_of_isTag isTag]
        simp
      · have isSome : next.root.isSome := by rw [isRoot, Option.isSome_some]
        obtain ⟨noTags, same⟩ := foldlM_after closed isSome ran
        refine ⟨[token], rest, rfl, noTags, ⟨token, rfl, isTag⟩, root, same.trans isRoot, ?_⟩
        rw [whole, Token.run_cons_of_isTag isTag, String.append_empty]

/-- The root has the runs between its start tag and its end tag, and there are no other tags. -/
theorem foldlM_outside : ∀ {tokens : List Token} {state last : Reading} {root : Node},
    state.stack = [] → state.root = none → tokens.foldlM Reading.step state = .ok last →
    last.stack = [] → last.root = some root →
    ∃ prolog element epilog, tokens = prolog ++ element ++ epilog ∧
      (∀ token ∈ prolog ++ epilog, token.isTag = false) ∧
      (∃ tag, element.head? = some tag ∧ tag.isTag = true) ∧
      (∃ tag, element.getLast? = some tag ∧ tag.isTag = true) ∧
      root.runs = Token.runs state.count [] element
  | [], state, last, root, _, unclosed, ran, _, isRoot => by
    cases ran
    rw [unclosed] at isRoot
    cases isRoot
  | token :: rest, state, last, root, outside, unclosed, ran, finished, isRoot => by
    obtain ⟨next, stepped, ranRest⟩ := bind_eq_ok.mp ran
    cases isTag : token.isTag with
    | false =>
      obtain rfl : next = state := by
        rw [step_of_isTag_eq_false isTag stepped, addText_of_stack_eq_nil outside]
      obtain ⟨prolog, element, epilog, rfl, noTags, first, final, runs⟩ :=
        foldlM_outside outside unclosed ranRest finished isRoot
      exact ⟨token :: prolog, element, epilog, rfl, List.forall_mem_cons.mpr ⟨isTag, noTags⟩, first,
        final, runs⟩
    | true =>
      cases token with
      | text _ | cdata _ | aside => cases isTag
      | close raw =>
        obtain ⟨innermost, outer, isStack, -⟩ := closeTag_eq_ok stepped
        rw [outside] at isStack
        cases isStack
      | start raw =>
        obtain ⟨grown, opened, count⟩ := grows_enter outside stepped
        obtain ⟨inner, epilog, rfl, noTags, ⟨tag, isLast, lastTag⟩, found, isFound, whole⟩ :=
          grown.foldlM finished ranRest
        cases isRoot.symm.trans isFound
        refine ⟨[], .start raw :: inner, epilog, rfl, noTags, ⟨_, rfl, isTag⟩, ⟨tag, ?_, lastTag⟩,
          ?_⟩
        · rw [List.getLast?_cons, isLast]
          rfl
        · rw [whole, opened, count, String.empty_append]
          rfl
      | empty raw =>
        obtain ⟨between, entered, left⟩ := bind_eq_ok.mp stepped
        cases left
        obtain ⟨grown, opened, -⟩ := grows_enter outside entered
        obtain ⟨outermost, isStack, isFirst⟩ := List.map_eq_singleton_iff.mp opened
        obtain ⟨closed, found, isFound, whole⟩ := grown.leave_outermost isStack
        have isSome : between.leave.root.isSome := by rw [isFound, Option.isSome_some]
        obtain ⟨noTags, same⟩ := foldlM_after closed isSome ranRest
        cases isRoot.symm.trans (same.trans isFound)
        refine ⟨[], [.empty raw], rest, rfl, noTags, ⟨_, rfl, isTag⟩, ⟨_, rfl, isTag⟩, ?_⟩
        rw [whole, isFirst]
        rfl

/-- Character data that was read has sound references. -/
theorem expand_of_mem {raw : List Char} : ∀ {tokens : List Token} {state last : Reading},
    tokens.foldlM Reading.step state = .ok last → .text raw ∈ tokens →
    ∃ characters, Text.expand raw = .ok characters
  | token :: rest, state, last, ran, member => by
    obtain ⟨next, stepped, ranRest⟩ := bind_eq_ok.mp ran
    rcases List.mem_cons.mp member with rfl | member
    · obtain ⟨characters, expanded, -⟩ := bind_eq_ok.mp stepped
      exact ⟨characters, mapError_eq_ok.mp expanded⟩
    · exact expand_of_mem ranRest member

end Reading

/-! ## 5. Documents -/

namespace Document

variable {text : String} {document : Document}

/-- *The root of a document that was read keeps the runs of its text, from the start tag of the
root to its end tag, each once.* -/
theorem runs_of_parse (h : parse text = .ok document) :
    ∃ prolog element epilog,
      Token.scan (withoutMark text.toList) = (prolog ++ element ++ epilog, none) ∧
      (∀ token ∈ prolog ++ epilog, token.isTag = false) ∧
      (∃ tag, element.head? = some tag ∧ tag.isTag = true) ∧
      (∃ tag, element.getLast? = some tag ∧ tag.isTag = true) ∧
      (∀ raw, .text raw ∈ element → ∃ characters, Text.expand raw = .ok characters) ∧
      document.root.runs = Token.runs 0 [] element := by
  cases scanned : Token.scan (withoutMark text.toList) with
  | mk tokens fault =>
    unfold parse read at h
    rw [scanned] at h
    obtain ⟨state, ran, h⟩ := bind_eq_ok.mp h
    cases fault with
    | some fault => cases h
    | none =>
      obtain ⟨outside, root, isRoot, rfl⟩ := Reading.finish_eq_ok.mp h
      obtain ⟨prolog, element, epilog, rfl, noTags, first, last, runs⟩ :=
        Reading.foldlM_outside rfl rfl ran outside isRoot
      refine ⟨prolog, element, epilog, rfl, noTags, first, last, fun raw member => ?_, runs⟩
      exact Reading.expand_of_mem ran
        (List.mem_append_left _ (List.mem_append_right _ member))

/-- The characters of the root are those between its start tag and its end tag. -/
theorem characters_of_runs (h : parse text = .ok document) {element : List Token} {tag : Token}
    (first : element.head? = some tag) (isTag : tag.isTag = true)
    (runs : document.root.runs = Token.runs 0 [] element) :
    document.root.toElement.characters = String.ofList (element.flatMap Token.characters) := by
  obtain ⟨rest, rfl⟩ := List.head?_eq_some_iff.mp first
  have all := Token.characters_runs (tag :: rest) 0 []
  rw [Token.run_cons_of_isTag isTag, ← runs, ← document.root.toList_characters,
    root_tail_of_parse h] at all
  rw [← all]
  simp

/-- No edge of a document is there twice. -/
theorem nodup_runs (h : parse text = .ok document) : (document.root.runs.map (·.1)).Nodup := by
  rw [Node.map_fst_runs]
  exact Node.edges_nodup (ordered_of_parse h)

end Document

end Intertext.Markup
