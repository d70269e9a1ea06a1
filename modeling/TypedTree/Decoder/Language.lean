import TypedTree.Schema.Definition

/-!
The language of hardware decoders. A decoder samples input channels and emits tokens. It consists of automata
whose transitions fire on events (edges of a channel, delays, events derived from others) and run actions on
tokens. Transitions are events themselves, so one automaton can be triggered by another. Every kind of node but
a source location can have a name and a source location.
-/

namespace TypedTree.Decoder

/-- The change of a channel that an event waits for. -/
inductive Edge where
  | rising
  | falling
deriving DecidableEq, Repr

/-- The operator that joins two conditions. -/
inductive ConditionOp where
  | and
deriving DecidableEq, Repr

instance : Enumerated Edge where
  label := "Edge"
  all := [.rising, .falling]
  name
    | .rising => "Rising"
    | .falling => "Falling"
  mem_all a := by cases a <;> decide
  nodup_names := by decide

instance : Enumerated ConditionOp where
  label := "Bop"
  all := [.and]
  name
    | .and => "And"
  mem_all a := by cases a; decide
  nodup_names := by decide

inductive Kind where
  | debugInfo
  | channel
  | high
  | low
  | constantCondition
  | conditionBinOp
  | externalEvent
  | delayedEvent
  | internalEvent
  | sample
  | token
  | start
  | append
  | emit
  | reset
  | state
  | transition
  | dfa
  | decoder
deriving DecidableEq, Repr

namespace Kind

/-- The kinds in order of declaration. -/
def list : List Kind := [
  .debugInfo, .channel, .high, .low, .constantCondition, .conditionBinOp, .externalEvent, .delayedEvent,
  .internalEvent, .sample, .token, .start, .append, .emit, .reset, .state, .transition, .dfa, .decoder]

def name : Kind → String
  | .debugInfo => "DebugInfo"
  | .channel => "Channel"
  | .high => "High"
  | .low => "Low"
  | .constantCondition => "ConstantCondition"
  | .conditionBinOp => "ConditionBinOp"
  | .externalEvent => "ExternalEvent"
  | .delayedEvent => "DelayedEvent"
  | .internalEvent => "InternalEvent"
  | .sample => "Sample"
  | .token => "Token"
  | .start => "Start"
  | .append => "Append"
  | .emit => "Emit"
  | .reset => "Reset"
  | .state => "State"
  | .transition => "Transition"
  | .dfa => "DFA"
  | .decoder => "Decoder"

end Kind

instance : Enumerated Kind where
  label := "decoder"
  all := Kind.list
  name := Kind.name
  mem_all k := by cases k <;> decide
  nodup_names := by decide

namespace Kind

/-- The classes of the kind: conditions, events (transitions among them) and actions. -/
def classes : Kind → List String
  | .high | .low | .constantCondition | .conditionBinOp => ["Condition"]
  | .externalEvent | .delayedEvent | .internalEvent | .sample | .transition => ["Event"]
  | .start | .append | .emit | .reset => ["Action"]
  | .debugInfo | .channel | .token | .state | .dfa | .decoder => []

/-- The fields that tell nodes of the kind apart. -/
def ownFields : Kind → List Field
  | .debugInfo => [⟨"file", .str⟩, ⟨"line", .int⟩, ⟨"col", .int⟩]
  | .channel => [⟨"width", .int⟩]
  | .high | .low => [⟨"channel", .node "Channel"⟩]
  | .constantCondition => [⟨"value", .bool⟩]
  | .conditionBinOp => [⟨"op", .enum ConditionOp⟩, ⟨"left", .node "Condition"⟩, ⟨"right", .node "Condition"⟩]
  | .externalEvent => [⟨"edge", .enum Edge⟩, ⟨"channel", .node "Channel"⟩]
  | .delayedEvent => [⟨"cycles", .int⟩]
  | .internalEvent => [⟨"trigger", .node "Event"⟩, ⟨"guard", .optional (.node "Condition")⟩]
  | .sample => [⟨"trigger", .node "Event"⟩, ⟨"channel", .node "Channel"⟩]
  | .token => [⟨"width", .int⟩, ⟨"has_duration", .bool⟩]
  | .start | .emit | .reset => [⟨"token", .node "Token"⟩]
  | .append => [⟨"token", .node "Token"⟩, ⟨"channel", .node "Channel"⟩]
  | .state => []
  | .transition => [⟨"source", .node "State"⟩, ⟨"destination", .node "State"⟩, ⟨"trigger", .node "Event"⟩,
      ⟨"actions", .list (.node "Action")⟩]
  | .dfa => [⟨"start", .node "State"⟩, ⟨"states", .list (.node "State")⟩,
      ⟨"transitions", .list (.node "Transition")⟩]
  | .decoder => [⟨"inputs", .list (.node "Channel")⟩, ⟨"outputs", .list (.node "Token")⟩,
      ⟨"dfas", .list (.node "DFA")⟩]

/-- The fields every kind but a source location has behind its own. -/
def commonFields : List Field := [⟨"name", .optional .str⟩, ⟨"dbg", .optional (.node "DebugInfo")⟩]

def fields (k : Kind) : List Field :=
  if k = .debugInfo then k.ownFields else k.ownFields ++ commonFields

def variant (k : Kind) : Variant := ⟨k.name, k.classes, k.fields⟩

/-- The kind whose variant has the name of the node's variant. -/
def of? (n : Node) : Option Kind := Enumerated.ofName? Kind n.kind

@[simp] theorem name_variant (k : Kind) : k.variant.name = k.name := rfl

theorem of?_mk_variant (id : NodeId) (k : Kind) (values : List Value) : of? (.mk id k.variant values) = some k :=
  Enumerated.ofName?_name k

end Kind

def variants : List Variant := Kind.list.map Kind.variant

def schema : Schema where
  name := "decoder"
  variants := variants
  consistent :=
    have hn : Schema.nameFault? [] variants = none := by decide +kernel
    have hc : Schema.classesFault? variants = none := by decide +kernel
    ⟨(Schema.nameFault?_eq_none hn).1, (Schema.nameFault?_eq_none hn).2.2, Schema.classesFault?_eq_none hc⟩

end TypedTree.Decoder
