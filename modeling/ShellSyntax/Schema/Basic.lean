import ShellSyntax.Tree.Kind

/-!
# The fields of an encoded tree

* `Shape`: what an encoded object may stand for, a node of some kind or a position;
* `Shape.fields`: the declared fields of a shape, each with its type and its default;
* `FieldType.describe`: a type as it is named in a diagnosis.
-/

namespace ShellSyntax

/-- The sets of node kinds that fields admit. -/
inductive Family where
  | any | lit | word | part | index | replace | expansion | arith | assign | redirect | stmt
  | command | cond | elif | forHead | caseItem
  deriving DecidableEq, Repr

namespace Family

def kinds : Family → List Kind
  | .any => Kind.all
  | .lit => [.lit]
  | .word => [.word]
  | .part =>
    [.lit, .singleQuoted, .quoted, .param, .cmdSubst, .arithExp, .array, .cmdInput]
  | .index => [.index]
  | .replace => [.replace]
  | .expansion => [.expansion]
  | .arith => [.word, .unary, .binary, .paren]
  | .assign => [.assign]
  | .redirect => [.redirect]
  | .stmt => [.stmt]
  | .command =>
    [.simple, .subshell, .block, .ifClause, .whileLoop, .untilLoop, .forLoop, .caseClause,
     .function, .declaration]
  | .cond => [.listCond, .testCond]
  | .elif => [.elif]
  | .forHead => [.forWords, .countLoop]
  | .caseItem => [.caseItem]

def describe (f : Family) : String :=
  if f = .any then "Node" else " or ".intercalate (f.kinds.map Kind.name)

end Family

inductive FieldType where
  | bool | int | text | token | pos
  | node (family : Family)
  | optional (family : Family)
  | list (family : Family)
  deriving DecidableEq, Repr

def FieldType.describe : FieldType → String
  | .bool => "bool"
  | .int => "int"
  | .text => "str"
  | .token => "Token"
  | .pos => "Pos"
  | .node f => f.describe
  | .optional f => f.describe ++ " or null"
  | .list f => "a list of " ++ f.describe

/-- The values that a field may have when it is left out. -/
inductive Default where
  | absent | no | zero | emptyText | token (t : Token) | nowhere | emptyList
  | emptyWord | emptyLit | emptyStmt
  deriving DecidableEq, Repr

/-- A declared field. One without a default may not be left out. -/
structure Field where
  name : String
  type : FieldType
  default? : Option Default
  deriving DecidableEq, Repr

namespace Field

def flag (name : String) : Field := ⟨name, .bool, some .no⟩

def number (name : String) : Field := ⟨name, .int, some .zero⟩

def text (name : String) : Field := ⟨name, .text, some .emptyText⟩

def operator (name : String) : Field := ⟨name, .token, none⟩

def place (name : String) : Field := ⟨name, .pos, some .nowhere⟩

def lit (name : String) : Field := ⟨name, .node .lit, some .emptyLit⟩

def word (name : String) : Field := ⟨name, .node .word, some .emptyWord⟩

def optional (name : String) (f : Family) : Field := ⟨name, .optional f, some .absent⟩

def list (name : String) (f : Family) : Field := ⟨name, .list f, some .emptyList⟩

end Field

/-- The fields of a node of the given kind, in order. -/
def Kind.fields : Kind → List Field
  | .lit => [.text "value", .place "value_pos"]
  | .word => [.list "parts" .part]
  | .singleQuoted => [.text "value", .place "quote_pos"]
  | .quoted =>
    [⟨"quote", .token, some (.token .doubleQuote)⟩, .list "parts" .part, .place "quote_pos"]
  | .index => [.word "word"]
  | .replace => [.word "orig", .word "with_", .flag "all"]
  | .expansion => [⟨"op", .token, some (.token .colonMinus)⟩, .word "word"]
  | .param =>
    [.lit "param", .flag "short", .flag "length", .optional "ind" .index,
     .optional "repl" .replace, .optional "exp" .expansion, .place "dollar"]
  | .cmdSubst => [.list "stmts" .stmt, .flag "backquotes", .place "left", .place "right"]
  | .arithExp => [.optional "x" .arith, .place "dollar", .place "rparen"]
  | .array => [.list "items" .word, .place "lparen", .place "rparen"]
  | .cmdInput => [.list "stmts" .stmt, .place "lss", .place "rparen"]
  | .unary => [.operator "op", .optional "x" .arith, .flag "post", .place "op_pos"]
  | .binary =>
    [.operator "op", .optional "x" .arith, .optional "y" .arith, .place "op_pos"]
  | .paren => [.optional "x" .arith, .place "lparen", .place "rparen"]
  | .countLoop =>
    [.optional "init" .arith, .optional "cond" .arith, .optional "post" .arith,
     .place "lparen", .place "rparen"]
  | .assign => [.word "value", .optional "name" .lit, .flag "append"]
  | .redirect => [.operator "op", .word "word", .optional "n" .lit, .place "op_pos"]
  | .stmt =>
    [.optional "node" .command, .flag "negated", .list "assigns" .assign,
     .list "redirs" .redirect, .flag "background", .place "position"]
  | .file => [.list "stmts" .stmt, .text "name"]
  | .simple => [.list "args" .word]
  | .subshell => [.list "stmts" .stmt, .place "lparen", .place "rparen"]
  | .block => [.list "stmts" .stmt, .place "lbrace", .place "rbrace"]
  | .listCond => [.list "stmts" .stmt]
  | .testCond => [.optional "cond" .any, .place "lparen", .place "rparen"]
  | .elif => [.optional "cond" .cond, .list "then_stmts" .stmt, .place "elif_pos"]
  | .ifClause =>
    [.optional "cond" .cond, .list "then_stmts" .stmt, .list "elifs" .elif,
     .list "else_stmts" .stmt, .place "if_pos", .place "fi_pos"]
  | .whileLoop =>
    [.optional "cond" .cond, .list "do_stmts" .stmt, .place "while_pos", .place "done_pos"]
  | .untilLoop =>
    [.optional "cond" .cond, .list "do_stmts" .stmt, .place "until_pos", .place "done_pos"]
  | .forWords => [.lit "name", .list "items" .word]
  | .forLoop =>
    [.optional "cond" .forHead, .list "do_stmts" .stmt, .place "for_pos", .place "done_pos"]
  | .caseItem => [.list "patterns" .word, .list "stmts" .stmt]
  | .caseClause =>
    [.word "word", .list "items" .caseItem, .place "case_pos", .place "esac_pos"]
  | .function =>
    [.lit "name", ⟨"body", .node .stmt, some .emptyStmt⟩, .flag "bash_style", .place "position"]
  | .declaration =>
    [.list "assigns" .assign, .list "opts" .word, .flag "local", .place "declare_pos"]

/-- What an encoded object stands for. -/
inductive Shape where
  | pos
  | node (kind : Kind)
  deriving DecidableEq, Repr

namespace Shape

def all : List Shape := .pos :: Kind.all.map .node

def name : Shape → String
  | .pos => "Pos"
  | .node kind => kind.name

def ofName? (name : String) : Option Shape := all.find? fun s => s.name = name

def fields : Shape → List Field
  | .pos => [.number "line", .number "column", .number "offset"]
  | .node kind => kind.fields

def field? (s : Shape) (name : String) : Option Field := s.fields.find? fun f => f.name = name

end Shape

end ShellSyntax
