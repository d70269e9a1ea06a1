import TypedTree.Decoder.Language

/-!
Builders for the kinds of node of the decoder language. A builder fails only if a node is passed where its class
does not belong.
-/

namespace TypedTree.Decoder

def named (n : Node) (name : String) : BuildM Node := n.update [("name", .str name)]

def debugInfo (file : String) (line col : Int) : BuildM Node :=
  Kind.debugInfo.variant.build [("file", .str file), ("line", .int line), ("col", .int col)]

def channel (width : Int) : BuildM Node := Kind.channel.variant.build [("width", .int width)]

/-! ### Conditions -/

def high (channel : Node) : BuildM Node := Kind.high.variant.build [("channel", .node channel)]

def low (channel : Node) : BuildM Node := Kind.low.variant.build [("channel", .node channel)]

def constantCondition (value : Bool) : BuildM Node :=
  Kind.constantCondition.variant.build [("value", .bool value)]

def conditionBinOp (op : ConditionOp) (left right : Node) : BuildM Node :=
  Kind.conditionBinOp.variant.build [("op", .ofMember op), ("left", .node left), ("right", .node right)]

/-! ### Events -/

def externalEvent (edge : Edge) (channel : Node) : BuildM Node :=
  Kind.externalEvent.variant.build [("edge", .ofMember edge), ("channel", .node channel)]

def delayedEvent (cycles : Int) : BuildM Node := Kind.delayedEvent.variant.build [("cycles", .int cycles)]

/-- An event that fires with its trigger, while the guard holds if there is one. -/
def internalEvent (trigger : Node) (guard : Option Node) : BuildM Node :=
  Kind.internalEvent.variant.build [("trigger", .node trigger), ("guard", .ofOption guard)]

/-- An event that reads a channel whenever its trigger fires. -/
def sample (trigger channel : Node) : BuildM Node :=
  Kind.sample.variant.build [("trigger", .node trigger), ("channel", .node channel)]

/-! ### Tokens and actions -/

def token (width : Int) (hasDuration : Bool) : BuildM Node :=
  Kind.token.variant.build [("width", .int width), ("has_duration", .bool hasDuration)]

def start (token : Node) : BuildM Node := Kind.start.variant.build [("token", .node token)]

def append (token channel : Node) : BuildM Node :=
  Kind.append.variant.build [("token", .node token), ("channel", .node channel)]

def emit (token : Node) : BuildM Node := Kind.emit.variant.build [("token", .node token)]

def reset (token : Node) : BuildM Node := Kind.reset.variant.build [("token", .node token)]

/-! ### Automata -/

def state : BuildM Node := Kind.state.variant.build []

def transition (source destination trigger : Node) (actions : List Node) : BuildM Node :=
  Kind.transition.variant.build [("source", .node source), ("destination", .node destination),
    ("trigger", .node trigger), ("actions", .nodeList actions)]

def dfa (start : Node) (states transitions : List Node) : BuildM Node :=
  Kind.dfa.variant.build [("start", .node start), ("states", .nodeList states),
    ("transitions", .nodeList transitions)]

def decoder (inputs outputs dfas : List Node) : BuildM Node :=
  Kind.decoder.variant.build [("inputs", .nodeList inputs), ("outputs", .nodeList outputs),
    ("dfas", .nodeList dfas)]

end TypedTree.Decoder
