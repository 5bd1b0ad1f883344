import ShellSyntax.Tree.Basic

/-!
# The types of nodes

`Component α` says that the values of `α` are nodes of a tree: `toNode` embeds them, and `ofNode?`
recognises them again.
-/

namespace ShellSyntax

class Component (α : Type) where
  toNode : α → Node
  ofNode? : Node → Option α
  ofNode?_toNode (a : α) : ofNode? (toNode a) = some a
  toNode_of_ofNode? (n : Node) (a : α) : ofNode? n = some a → toNode a = n

namespace Component

attribute [simp] ofNode?_toNode

instance : Component Node where
  toNode := id
  ofNode? := some
  ofNode?_toNode _ := rfl
  toNode_of_ofNode? _ _ h := (Option.some.inj h).symm

instance : Component Lit where
  toNode := .lit
  ofNode?
    | .lit l => some l
    | _ => none
  ofNode?_toNode _ := rfl
  toNode_of_ofNode? n a h := by split at h <;> simp_all

instance : Component Word where
  toNode := .word
  ofNode?
    | .word w => some w
    | _ => none
  ofNode?_toNode _ := rfl
  toNode_of_ofNode? n a h := by split at h <;> simp_all

instance : Component Part where
  toNode := .part
  ofNode?
    | .part p => some p
    | _ => none
  ofNode?_toNode _ := rfl
  toNode_of_ofNode? n a h := by split at h <;> simp_all

instance : Component Index where
  toNode := .index
  ofNode?
    | .index i => some i
    | _ => none
  ofNode?_toNode _ := rfl
  toNode_of_ofNode? n a h := by split at h <;> simp_all

instance : Component Replace where
  toNode := .replace
  ofNode?
    | .replace r => some r
    | _ => none
  ofNode?_toNode _ := rfl
  toNode_of_ofNode? n a h := by split at h <;> simp_all

instance : Component Expansion where
  toNode := .expansion
  ofNode?
    | .expansion e => some e
    | _ => none
  ofNode?_toNode _ := rfl
  toNode_of_ofNode? n a h := by split at h <;> simp_all

instance : Component Arith where
  toNode := .arith
  ofNode?
    | .arith a => some a
    | _ => none
  ofNode?_toNode _ := rfl
  toNode_of_ofNode? n a h := by split at h <;> simp_all

instance : Component Assign where
  toNode := .assign
  ofNode?
    | .assign a => some a
    | _ => none
  ofNode?_toNode _ := rfl
  toNode_of_ofNode? n a h := by split at h <;> simp_all

instance : Component Redirect where
  toNode := .redirect
  ofNode?
    | .redirect r => some r
    | _ => none
  ofNode?_toNode _ := rfl
  toNode_of_ofNode? n a h := by split at h <;> simp_all

instance : Component Stmt where
  toNode := .stmt
  ofNode?
    | .stmt s => some s
    | _ => none
  ofNode?_toNode _ := rfl
  toNode_of_ofNode? n a h := by split at h <;> simp_all

instance : Component Command where
  toNode := .command
  ofNode?
    | .command c => some c
    | _ => none
  ofNode?_toNode _ := rfl
  toNode_of_ofNode? n a h := by split at h <;> simp_all

instance : Component Cond where
  toNode := .cond
  ofNode?
    | .cond c => some c
    | _ => none
  ofNode?_toNode _ := rfl
  toNode_of_ofNode? n a h := by split at h <;> simp_all

instance : Component Elif where
  toNode := .elif
  ofNode?
    | .elif e => some e
    | _ => none
  ofNode?_toNode _ := rfl
  toNode_of_ofNode? n a h := by split at h <;> simp_all

instance : Component ForHead where
  toNode := .forHead
  ofNode?
    | .forHead h => some h
    | _ => none
  ofNode?_toNode _ := rfl
  toNode_of_ofNode? n a h := by split at h <;> simp_all

instance : Component CaseItem where
  toNode := .caseItem
  ofNode?
    | .caseItem i => some i
    | _ => none
  ofNode?_toNode _ := rfl
  toNode_of_ofNode? n a h := by split at h <;> simp_all

@[simp] theorem toNode_node : (toNode : Node → Node) = id := rfl

@[simp] theorem toNode_lit : (toNode : Lit → Node) = .lit := rfl

@[simp] theorem toNode_word : (toNode : Word → Node) = .word := rfl

@[simp] theorem toNode_part : (toNode : Part → Node) = .part := rfl

@[simp] theorem toNode_index : (toNode : Index → Node) = .index := rfl

@[simp] theorem toNode_replace : (toNode : Replace → Node) = .replace := rfl

@[simp] theorem toNode_expansion : (toNode : Expansion → Node) = .expansion := rfl

@[simp] theorem toNode_arith : (toNode : Arith → Node) = .arith := rfl

@[simp] theorem toNode_assign : (toNode : Assign → Node) = .assign := rfl

@[simp] theorem toNode_redirect : (toNode : Redirect → Node) = .redirect := rfl

@[simp] theorem toNode_stmt : (toNode : Stmt → Node) = .stmt := rfl

@[simp] theorem toNode_command : (toNode : Command → Node) = .command := rfl

@[simp] theorem toNode_cond : (toNode : Cond → Node) = .cond := rfl

@[simp] theorem toNode_elif : (toNode : Elif → Node) = .elif := rfl

@[simp] theorem toNode_forHead : (toNode : ForHead → Node) = .forHead := rfl

@[simp] theorem toNode_caseItem : (toNode : CaseItem → Node) = .caseItem := rfl

end Component

end ShellSyntax
