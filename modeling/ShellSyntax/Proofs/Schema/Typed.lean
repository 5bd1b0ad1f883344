import Mathlib.Data.List.Forall2
import ShellSyntax.Schema.Fields

/-!
# Typed fields

* `FieldValue.HasType`: the values that a field of a type may have;
* `Item.fields_typed`: the fields of every node and position have their declared types;
* `Item.exists_of_typed`: values of the declared types are the fields of some node or position.
-/

namespace ShellSyntax

namespace FieldValue

inductive HasType : FieldType → FieldValue → Prop where
  | bool (b : Bool) : HasType .bool (.bool b)
  | int (n : Int) : HasType .int (.int n)
  | text (t : String) : HasType .text (.text t)
  | token (t : Token) : HasType .token (.token t)
  | pos (p : Pos) : HasType .pos (.pos p)
  | node {f : Family} {n : Node} (h : n.kind ∈ f.kinds) : HasType (.node f) (.node n)
  | absent (f : Family) : HasType (.optional f) .absent
  | present {f : Family} {n : Node} (h : n.kind ∈ f.kinds) : HasType (.optional f) (.node n)
  | list {f : Family} {l : List Node} (h : ∀ n ∈ l, n.kind ∈ f.kinds) : HasType (.list f) (.nodes l)

/-- The values have the types of the fields, in order. -/
abbrev Typed (fields : List Field) (values : List FieldValue) : Prop :=
  List.Forall₂ (fun f v => HasType f.type v) fields values

end FieldValue

/-! ### The nodes of a family -/

namespace Family

/-- The type of the nodes that the family admits. -/
@[reducible] def Member : Family → Type
  | .any => Node | .lit => Lit | .word => Word | .part => Part | .index => Index
  | .replace => Replace | .expansion => Expansion | .arith => Arith | .assign => Assign
  | .redirect => Redirect | .stmt => Stmt | .command => Command | .cond => Cond | .elif => Elif
  | .forHead => ForHead | .caseItem => CaseItem

instance : (f : Family) → Component f.Member
  | .any => inferInstanceAs (Component Node)
  | .lit => inferInstanceAs (Component Lit)
  | .word => inferInstanceAs (Component Word)
  | .part => inferInstanceAs (Component Part)
  | .index => inferInstanceAs (Component Index)
  | .replace => inferInstanceAs (Component Replace)
  | .expansion => inferInstanceAs (Component Expansion)
  | .arith => inferInstanceAs (Component Arith)
  | .assign => inferInstanceAs (Component Assign)
  | .redirect => inferInstanceAs (Component Redirect)
  | .stmt => inferInstanceAs (Component Stmt)
  | .command => inferInstanceAs (Component Command)
  | .cond => inferInstanceAs (Component Cond)
  | .elif => inferInstanceAs (Component Elif)
  | .forHead => inferInstanceAs (Component ForHead)
  | .caseItem => inferInstanceAs (Component CaseItem)

theorem kind_toNode_mem {f : Family} (a : f.Member) : (Component.toNode a).kind ∈ f.kinds := by
  cases f with
  | any => exact Kind.mem_all _
  | lit | word | index | replace | expansion | assign | redirect | stmt | elif | caseItem =>
    exact List.mem_singleton_self _
  | part | arith | command | cond | forHead => cases a <;> exact List.elem_iff.mp rfl

theorem exists_of_kind_mem {f : Family} {n : Node} (h : n.kind ∈ f.kinds) :
    ∃ a : f.Member, Component.toNode a = n := by
  cases n with
  | part a | arith a | cond a | command a | forHead a =>
    cases a <;> cases f <;> first | exact ⟨_, rfl⟩ | cases List.elem_eq_true_of_mem h
  | _ => cases f <;> first | exact ⟨_, rfl⟩ | cases List.elem_eq_true_of_mem h

end Family

/-! ### What holds of every typed value -/

namespace FieldValue

variable {f : Family} {P : FieldValue → Prop}

theorem forall_bool : (∀ v, HasType .bool v → P v) ↔ ∀ b, P (.bool b) :=
  ⟨fun h b => h _ (.bool b), fun h _ (.bool b) => h b⟩

theorem forall_int : (∀ v, HasType .int v → P v) ↔ ∀ n, P (.int n) :=
  ⟨fun h n => h _ (.int n), fun h _ (.int n) => h n⟩

theorem forall_text : (∀ v, HasType .text v → P v) ↔ ∀ t, P (.text t) :=
  ⟨fun h t => h _ (.text t), fun h _ (.text t) => h t⟩

theorem forall_token : (∀ v, HasType .token v → P v) ↔ ∀ t, P (.token t) :=
  ⟨fun h t => h _ (.token t), fun h _ (.token t) => h t⟩

theorem forall_pos : (∀ v, HasType .pos v → P v) ↔ ∀ p, P (.pos p) :=
  ⟨fun h p => h _ (.pos p), fun h _ (.pos p) => h p⟩

theorem forall_node : (∀ v, HasType (.node f) v → P v) ↔ ∀ a : f.Member, P (one a) := by
  constructor
  · intro h a
    exact h _ (.node (Family.kind_toNode_mem a))
  · intro h v (.node hn)
    obtain ⟨a, rfl⟩ := Family.exists_of_kind_mem hn
    exact h a

theorem forall_optional :
    (∀ v, HasType (.optional f) v → P v) ↔ ∀ a : Option f.Member, P (opt a) := by
  constructor
  · intro h a
    cases a with
    | none => exact h _ (.absent f)
    | some a => exact h _ (.present (Family.kind_toNode_mem a))
  · intro h v hv
    cases hv with
    | absent => exact h none
    | present hn =>
      obtain ⟨a, rfl⟩ := Family.exists_of_kind_mem hn
      exact h (some a)

theorem forall_list : (∀ v, HasType (.list f) v → P v) ↔ ∀ l : List f.Member, P (many l) := by
  constructor
  · intro h l
    refine h _ (.list fun n hn => ?_)
    obtain ⟨a, -, rfl⟩ := List.mem_map.mp hn
    exact Family.kind_toNode_mem a
  · intro h v hv
    cases hv with
    | @list _ nodes hl =>
      have hmembers : ∃ l : List f.Member, l.map Component.toNode = nodes := by
        induction nodes with
        | nil => exact ⟨[], rfl⟩
        | cons n rest ih =>
          obtain ⟨a, rfl⟩ := Family.exists_of_kind_mem (hl n List.mem_cons_self)
          obtain ⟨l, rfl⟩ := ih fun m hm => hl m (List.mem_cons_of_mem _ hm)
          exact ⟨a :: l, rfl⟩
      obtain ⟨l, rfl⟩ := hmembers
      exact h l

theorem hasType_one (a : f.Member) : HasType (.node f) (one a) := forall_node.mp (fun _ h => h) a

theorem hasType_opt (a : Option f.Member) : HasType (.optional f) (opt a) :=
  forall_optional.mp (fun _ h => h) a

theorem hasType_many (l : List f.Member) : HasType (.list f) (many l) :=
  forall_list.mp (fun _ h => h) l

variable {field : Field} {fields : List Field} {Q : List FieldValue → Prop}

theorem forall_typed_nil : (∀ l, Typed [] l → Q l) ↔ Q [] := by
  simp [Typed]

theorem forall_typed_cons : (∀ l, Typed (field :: fields) l → Q l)
    ↔ ∀ v, v.HasType field.type → ∀ l, Typed fields l → Q (v :: l) := by
  constructor
  · intro h v hv l hl
    exact h _ (.cons hv hl)
  · rintro h l (_ | ⟨hv, hl⟩)
    exact h _ hv _ hl

end FieldValue

/-! ### Nodes and positions -/

namespace Item

open FieldValue

/-- Values of the declared types are the fields of some node or position. -/
theorem exists_of_typed {s : Shape} : ∀ values, Typed s.fields values →
    ∃ i : Item, i.shape = s ∧ i.fields = values := by
  cases s with
  | pos =>
    simp only [Shape.fields, Field.number, forall_typed_cons, forall_typed_nil, forall_int]
    intro line column offset
    exact ⟨.pos ⟨line, column, offset⟩, rfl, rfl⟩
  | node kind =>
    cases kind <;>
      simp only [Shape.fields, Kind.fields, Field.flag, Field.text, Field.operator, Field.place,
        Field.lit, Field.word, Field.optional, Field.list, forall_typed_cons, forall_typed_nil,
        forall_bool, forall_text, forall_token, forall_pos, forall_node, forall_optional,
        forall_list]
    case lit => exact fun value p => ⟨.node (.lit ⟨value, p⟩), rfl, rfl⟩
    case word => exact fun parts => ⟨.node (.word ⟨parts⟩), rfl, rfl⟩
    case singleQuoted => exact fun value p => ⟨.node (.part (.singleQuoted value p)), rfl, rfl⟩
    case quoted => exact fun quote parts p => ⟨.node (.part (.quoted quote parts p)), rfl, rfl⟩
    case index => exact fun word => ⟨.node (.index ⟨word⟩), rfl, rfl⟩
    case replace =>
      exact fun pattern substitute every =>
        ⟨.node (.replace ⟨pattern, substitute, every⟩), rfl, rfl⟩
    case expansion => exact fun op word => ⟨.node (.expansion ⟨op, word⟩), rfl, rfl⟩
    case param =>
      exact fun param short length index replace operation dollar =>
        ⟨.node (.part (.param ⟨param, short, length, index, replace, operation, dollar⟩)), rfl, rfl⟩
    case cmdSubst =>
      exact fun stmts quotes left right =>
        ⟨.node (.part (.cmdSubst stmts quotes left right)), rfl, rfl⟩
    case arithExp =>
      exact fun expr dollar rparen => ⟨.node (.part (.arithExp expr dollar rparen)), rfl, rfl⟩
    case array =>
      exact fun items lparen rparen => ⟨.node (.part (.array items lparen rparen)), rfl, rfl⟩
    case cmdInput =>
      exact fun stmts less rparen => ⟨.node (.part (.cmdInput stmts less rparen)), rfl, rfl⟩
    case unary =>
      exact fun op operand postfixed p => ⟨.node (.arith (.unary op operand postfixed p)), rfl, rfl⟩
    case binary =>
      exact fun op left right p => ⟨.node (.arith (.binary op left right p)), rfl, rfl⟩
    case paren =>
      exact fun inner lparen rparen => ⟨.node (.arith (.paren inner lparen rparen)), rfl, rfl⟩
    case countLoop =>
      exact fun init cond step lparen rparen =>
        ⟨.node (.countLoop ⟨init, cond, step, lparen, rparen⟩), rfl, rfl⟩
    case assign => exact fun value name append => ⟨.node (.assign ⟨value, name, append⟩), rfl, rfl⟩
    case redirect =>
      exact fun op word descriptor p => ⟨.node (.redirect ⟨op, word, descriptor, p⟩), rfl, rfl⟩
    case stmt =>
      exact fun command negated assigns redirs background p =>
        ⟨.node (.stmt ⟨command, negated, assigns, redirs, background, p⟩), rfl, rfl⟩
    case file => exact fun stmts name => ⟨.node (.file ⟨stmts, name⟩), rfl, rfl⟩
    case simple => exact fun args => ⟨.node (.command (.simple args)), rfl, rfl⟩
    case subshell =>
      exact fun stmts lparen rparen => ⟨.node (.command (.subshell stmts lparen rparen)), rfl, rfl⟩
    case block =>
      exact fun stmts lbrace rbrace => ⟨.node (.command (.block stmts lbrace rbrace)), rfl, rfl⟩
    case listCond => exact fun stmts => ⟨.node (.cond (.list stmts)), rfl, rfl⟩
    case testCond =>
      exact fun expr lparen rparen => ⟨.node (.cond (.test expr lparen rparen)), rfl, rfl⟩
    case elif => exact fun cond stmts p => ⟨.node (.elif ⟨cond, stmts, p⟩), rfl, rfl⟩
    case ifClause =>
      exact fun cond stmts elifs others ifPos fiPos =>
        ⟨.node (.command (.ifClause cond stmts elifs others ifPos fiPos)), rfl, rfl⟩
    case whileLoop =>
      exact fun cond body start done =>
        ⟨.node (.command (.whileLoop cond body start done)), rfl, rfl⟩
    case untilLoop =>
      exact fun cond body start done =>
        ⟨.node (.command (.untilLoop cond body start done)), rfl, rfl⟩
    case forWords => exact fun name items => ⟨.node (.forHead (.words name items)), rfl, rfl⟩
    case forLoop =>
      exact fun head body start done => ⟨.node (.command (.forLoop head body start done)), rfl, rfl⟩
    case caseItem => exact fun patterns stmts => ⟨.node (.caseItem ⟨patterns, stmts⟩), rfl, rfl⟩
    case caseClause =>
      exact fun word items start stop =>
        ⟨.node (.command (.caseClause word items start stop)), rfl, rfl⟩
    case function =>
      exact fun name body keyword p => ⟨.node (.command (.function name body keyword p)), rfl, rfl⟩
    case declaration =>
      exact fun assigns options isLocal p =>
        ⟨.node (.command (.declaration assigns options isLocal p)), rfl, rfl⟩

theorem fields_typed (i : Item) : Typed i.shape.fields i.fields := by
  cases i with
  | pos p => exact .cons (.int _) (.cons (.int _) (.cons (.int _) .nil))
  | node n =>
    cases n with
    | part a | arith a | cond a | command a | forHead a =>
      cases a <;> repeat' first
        | exact hasType_one _
        | exact hasType_opt _
        | exact hasType_many _
        | constructor
    | _ =>
      repeat' first
        | exact hasType_one _
        | exact hasType_opt _
        | exact hasType_many _
        | constructor

end Item

end ShellSyntax
