import ShellSyntax.Main
import ShellSyntax.Schema.Encode
import ShellSyntax.Schema.Misfit
import ShellSyntax.Proofs.Arith.Scanning
import ShellSyntax.Proofs.Tree.Unplaced
import ShellSyntax.Proofs.Tree.Traversal
import ShellSyntax.Proofs.Tree.Content
import ShellSyntax.Proofs.Tree.Stored
import ShellSyntax.Proofs.Arith.Tokens
import ShellSyntax.Proofs.Arith.Grouping
import ShellSyntax.Proofs.Arith.Completeness
import ShellSyntax.Proofs.Arith.Regular
import ShellSyntax.Proofs.Arith.RoundTrip
import ShellSyntax.Proofs.Schema.Declared
import ShellSyntax.Proofs.Schema.Conforms
import ShellSyntax.Proofs.Schema.RoundTrip
import ShellSyntax.Proofs.Arith.Layout
import ShellSyntax.Proofs.Arith.Outline
import ShellSyntax.Proofs.Arith.Regrouping
import ShellSyntax.Proofs.Arith.Located
import ShellSyntax.Proofs.Tree.Pieces
import ShellSyntax.Proofs.Tree.Rules
import ShellSyntax.Proofs.Tree.Statements
import ShellSyntax.Proofs.Tree.LineBreaks
import ShellSyntax.Proofs.Tree.Edges
import ShellSyntax.Proofs.Tree.Followers
import ShellSyntax.Proofs.Tree.Heredocs
import ShellSyntax.Proofs.Arith.Outcome
import ShellSyntax.Proofs.Arith.Partition
import ShellSyntax.Proofs.Arith.Parts
import ShellSyntax.Proofs.Arith.Assignments
import ShellSyntax.Proofs.Reporter.Backlog
import ShellSyntax.Proofs.Reporter.Rechecks
import ShellSyntax.Proofs.CommandLine.Replacing
import ShellSyntax.Proofs.CommandLine.Delivery
import ShellSyntax.Proofs.Json.Keyed
import ShellSyntax.Proofs.Schema.Alike
import ShellSyntax.Proofs.Schema.Normal
import ShellSyntax.Proofs.Schema.Defects
import ShellSyntax.Proofs.Schema.KeyOrder
import ShellSyntax.Proofs.Arith.Written
import ShellSyntax.Proofs.Arith.Produced
import ShellSyntax.Proofs.Tree.Redirections
import ShellSyntax.Proofs.Tree.Parentheses
import ShellSyntax.Proofs.Tree.Background
import ShellSyntax.Proofs.Tree.BrokenLines
import ShellSyntax.Proofs.Arith.Increments
import ShellSyntax.Proofs.Tree.Breaches
import ShellSyntax.Proofs.Tree.Anchors
import ShellSyntax.Proofs.Tree.Keywords
import ShellSyntax.Proofs.Tree.Depth
import ShellSyntax.Proofs.Tree.Joining
import ShellSyntax.Proofs.CommandLine.Overwriting
import ShellSyntax.Proofs.Arith.Names
