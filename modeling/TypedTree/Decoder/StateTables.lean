import TypedTree.Decoder.Language
import TypedTree.Metadata.Repository
import TypedTree.Tree.Fields

/-!
State tables: for every state of a decoder the transitions that leave it, the transitions that enter it, and the
automaton that lists it. They are side tables over the tree, filled in one walk in the order of the automata and
of their transitions, and then locked.
-/

namespace TypedTree.Decoder

structure StateTables where
  repository : Metadata.Repository

namespace StateTables

/-- The name under which failures and the log mention the pass. -/
def passName : String := "state_info"

/-- The table of the transitions that leave a state. -/
def outgoingName : String := "outgoing"

/-- The table of the transitions that enter a state. -/
def incomingName : String := "incoming"

/-- The table of the automaton that a state belongs to. -/
def automatonName : String := "dfa"

/-- A table of lists of transitions, one list for each state. -/
def transitionsTable (name : String) : Metadata.Table := .create name "State" (.list (.node "Transition"))

/-- A table of automata, one for each state. -/
def automataTable : Metadata.Table := .create automatonName "State" (.node "DFA")

def blank : Metadata.Repository :=
  ⟨((OrderedMap.empty.insertNew outgoingName (transitionsTable outgoingName)).insertNew incomingName
    (transitionsTable incomingName)).insertNew automatonName automataTable⟩

/-- The tables as far as they are filled, and how much went into them. -/
structure Tally where
  repository : Metadata.Repository := blank
  states : Nat := 0
  transitions : Nat := 0

namespace Tally

/-- Records where a transition leaves and where it enters. -/
def addTransition (t : Tally) (n : Node) : Except Error Tally := do
  let source ← n.getNode "source"
  let repository ← t.repository.add outgoingName source (.node n)
  let destination ← n.getNode "destination"
  let repository ← repository.add incomingName destination (.node n)
  pure { t with repository, transitions := t.transitions + 1 }

/-- Records the automaton of each of its states, the start state being one of them. -/
def addAutomaton (t : Tally) (n : Node) : Except Error Tally := do
  let start ← n.getNode "start"
  let states ← n.getNodes "states"
  if states.contains start then
    let repository ← states.foldlM (fun r s => r.set automatonName s (.node n)) t.repository
    pure { t with repository, states := t.states + states.length }
  else throw (.pass (.startNotInStates n.id))

/-- Records what a tree holds: the automata of a decoder, the transitions of an automaton before its states. -/
def visit (t : Tally) (n : Node) : Except Error Tally :=
  match Kind.of? n with
  | some .decoder => do
    let dfas ← n.descendAll "dfas"
    dfas.foldlM (fun t c => t.visit c.1) t
  | some .dfa => do
    let transitions ← n.descendAll "transitions"
    let t ← transitions.foldlM (fun t c => t.visit c.1) t
    t.addAutomaton n
  | some .transition => t.addTransition n
  | _ => n.smallerChildren.foldlM (fun t c => t.visit c.1) t
termination_by sizeOf n
decreasing_by all_goals exact c.2

/-- What a decoder or an automaton holds. -/
def ofTree (root : Node) : Except Error Tally :=
  match Kind.of? root with
  | some .decoder | some .dfa => visit {} root
  | _ => throw (.pass (.unexpectedNode passName "Decoder or DFA" root.kind))

end Tally

/-- The locked tables of a decoder or an automaton. -/
def build (root : Node) : BuildM StateTables := do
  let t ← Tally.ofTree root
  let repository ← t.repository.lockAll
  Workspace.note ⟨.debug, s!"{passName}: {t.states} states, {t.transitions} transitions annotated"⟩
  pure ⟨repository⟩

def outgoing (t : StateTables) (state : Node) : Except Error (List Node) := do
  (← t.repository.table outgoingName).getNodes state

def incoming (t : StateTables) (state : Node) : Except Error (List Node) := do
  (← t.repository.table incomingName).getNodes state

/-- The automaton that lists a state, the last one if several do. -/
def automaton (t : StateTables) (state : Node) : Except Error Node := do
  (← t.repository.table automatonName).getNode state

end StateTables

end TypedTree.Decoder
