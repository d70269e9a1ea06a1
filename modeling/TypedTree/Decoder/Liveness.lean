import TypedTree.Decoder.StateTables

/-!
Dead code of decoders. An action is live when its token is an output of the decoder. Actions that are not are
dropped, then automata without any action, and the inputs are narrowed to the channels that are still read: by a
live append anywhere, or by the trigger of a transition of an automaton that stays. Transitions stay even without
actions, so the automata that remain keep their shape.
-/

namespace TypedTree.Decoder.Liveness

/-- The name under which failures and the log mention the pass. -/
def passName : String := "dead_code_elimination"

/-- Channels by identity, in the order in which they were first found to be read. -/
abbrev Channels := OrderedMap NodeId Node

/-- Building while collecting the channels that are read. -/
abbrev SweepM := StateT Channels BuildM

/-- Collects the channel that an event, condition or action reads. -/
def readChannel (n : Node) : SweepM Unit := do
  let channel ← n.getNode "channel"
  modify fun channels => channels.insertNew channel.id channel

/-! ### Actions -/

/-- Whether the token of an action is one of the outputs. -/
def feeds (outputs : List NodeId) (action : Node) : Except Error Bool := do
  let token ← action.getNode "token"
  pure (outputs.contains token.id)

/-- Whether an action is live; the channel of a live append is read. -/
def keepAction (outputs : List NodeId) (action : Node) : SweepM Bool :=
  match Kind.of? action with
  | some .append => do
    if ← feeds outputs action then
      readChannel action
      pure true
    else pure false
  | some .start | some .emit | some .reset => feeds outputs action
  | _ => throw (.pass (.unknownNode passName action.kind))

/-- The live ones of some actions. -/
def keepActions (outputs : List NodeId) : List Node → SweepM (List Node)
  | [] => pure []
  | action :: rest => do
    let live ← keepAction outputs action
    let kept ← keepActions outputs rest
    pure (if live then action :: kept else kept)

/-- The transition with its live actions. -/
def sweepTransition (outputs : List NodeId) (transition : Node) : SweepM Node := do
  let kept ← keepActions outputs (← transition.getNodes "actions")
  transition.update [("actions", .nodeList kept)]

/-- The automaton with its live actions, if it has any. -/
def sweepAutomaton (outputs : List NodeId) (dfa : Node) : SweepM (Option Node) := do
  let transitions ← (← dfa.getNodes "transitions").mapM (sweepTransition outputs)
  let actions ← transitions.mapM fun t => t.getNodes "actions"
  if actions.all (·.isEmpty) then pure none
  else some <$> dfa.update [("transitions", .nodeList transitions)]

/-! ### Triggers -/

/-- Collects the channels that an event or a condition reads. Of a transition only the actions count: what
    triggers it is the business of its own automaton. -/
def scanTrigger (outputs : List NodeId) (n : Node) : SweepM Unit :=
  match Kind.of? n with
  | some .externalEvent | some .high | some .low => readChannel n
  | some .sample => do
    let trigger ← n.descend "trigger"
    scanTrigger outputs trigger.1
    readChannel n
  | some .internalEvent => do
    match ← n.descend? "guard" with
    | some guard => scanTrigger outputs guard.1
    | none => pure ()
    let trigger ← n.descend "trigger"
    scanTrigger outputs trigger.1
  | some .conditionBinOp => do
    let left ← n.descend "left"
    scanTrigger outputs left.1
    let right ← n.descend "right"
    scanTrigger outputs right.1
  | some .transition => do
    let _ ← keepActions outputs (← n.getNodes "actions")
    pure ()
  | some .delayedEvent | some .constantCondition => pure ()
  | _ => throw (.pass (.unknownNode passName n.kind))
termination_by sizeOf n
decreasing_by all_goals (first | exact trigger.2 | exact guard.2 | exact left.2 | exact right.2)

/-- Collects the channels that the triggers of an automaton's transitions read. -/
def scanAutomaton (outputs : List NodeId) (dfa : Node) : SweepM Unit := do
  (← dfa.getNodes "transitions").forM fun transition => do
    scanTrigger outputs (← transition.getNode "trigger")

/-! ### Decoders -/

/-- The automata that stay; collects the channels they and all live appends read. -/
def sweep (outputs : List NodeId) (dfas : List Node) : SweepM (List Node) := do
  let swept ← dfas.mapM (sweepAutomaton outputs)
  let kept := swept.filterMap id
  kept.forM (scanAutomaton outputs)
  pure kept

/-- A decoder without dead code, with the state tables of the decoder it was made from. -/
structure Optimized where
  decoder : Node
  tables : StateTables

/-- Removes the actions, automata and inputs that cannot affect an output. The tables are computed if none are
    given. The log is on for debugging, so the line with the counts is written by every run that comes to it, and the
    inputs, which nothing but this line asks for, are read. A run with that log off leaves both out; it can end
    otherwise only where `inputs` is missing or not a list, which no decoder of the language has. -/
def eliminate (decoder : Node) (tables : Option StateTables) : BuildM Optimized := do
  if Kind.of? decoder ≠ some .decoder then
    throw (.pass (.unexpectedNode passName "Decoder" decoder.kind))
  let tables ← match tables with
    | some tables => pure tables
    | none => StateTables.build decoder
  let outputs := (← decoder.getNodes "outputs").map Node.id
  let dfas ← decoder.getNodes "dfas"
  let (kept, channels) ← (sweep outputs dfas).run .empty
  let inputs ← decoder.getNodes "inputs"
  Workspace.note ⟨.debug,
    s!"{passName}: kept {kept.length} DFAs, dropped {dfas.length - kept.length}, {channels.size} of {inputs.length} inputs live"⟩
  let decoder ← decoder.update [("inputs", .nodeList channels.values), ("dfas", .nodeList kept)]
  pure ⟨decoder, tables⟩

end TypedTree.Decoder.Liveness
