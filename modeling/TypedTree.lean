import TypedTree.Compile.Session
import TypedTree.Decoder.Builders
import TypedTree.Proofs.Compile.Calls
import TypedTree.Proofs.Compile.Direct
import TypedTree.Proofs.Compile.History
import TypedTree.Proofs.Compile.Traversal
import TypedTree.Proofs.Decoder.Copies
import TypedTree.Proofs.Decoder.Monotonicity
import TypedTree.Proofs.Decoder.Outcome
import TypedTree.Proofs.Decoder.Pruning
import TypedTree.Proofs.Decoder.StateTables
import TypedTree.Proofs.Decoder.TriggerLinks
import TypedTree.Proofs.Expr.Blocks
import TypedTree.Proofs.Expr.Erasure
import TypedTree.Proofs.Expr.ExpressionTypes
import TypedTree.Proofs.Expr.Failures
import TypedTree.Proofs.Expr.Idempotence
import TypedTree.Proofs.Expr.InPlace
import TypedTree.Proofs.Expr.Soundness
import TypedTree.Proofs.Expr.Writing
import TypedTree.Proofs.Json.Unambiguous
import TypedTree.Proofs.Metadata.Entries
import TypedTree.Proofs.Metadata.Locking
import TypedTree.Proofs.Metadata.WriteLog
import TypedTree.Proofs.Number.Numeral
import TypedTree.Proofs.Schema.Consistency
import TypedTree.Proofs.Tree.Canonical
import TypedTree.Proofs.Tree.CopyContent
import TypedTree.Proofs.Tree.Distinct
import TypedTree.Proofs.Tree.Overriding
import TypedTree.Proofs.Tree.Zeros
import TypedTree.Tree.Display
import TypedTree.Tree.Dump
import TypedTree.Tree.Equality
