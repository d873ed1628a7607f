/-
# Lowering a design: `setup_current_scope`, `simplify_parameter`, `process_design`,
# `visit_designs`

Before `simplify` runs on a top-level unit, `setup_current_scope` walks `shared.top_nodes`
and writes every member of every package into `AST_INTERNAL::current_scope`: typedefs,
parameters and localparams under `pkg::name` and under their bare name, enums and their
items under their own names.  `simplify_parameter` writes the same, then the declarations of
the instantiating module and of the instantiated one.  The walk follows the iteration order
of an `std::unordered_map`, which nothing fixes, so the model takes the order as an input:
a list of the map's entries.

`process_design` lowers the packages first, then walks the registry again: it emits every
entity that is not `partial` -- lowering the modules first -- and deletes the others, with
no change to the map.  `visit_designs` runs it once per design over the same registry.

* `setupCurrentScope_perm`: the binding that `setup_current_scope` and
  `simplify_parameter` install is the same for every iteration order when no name is
  written by two packages; `setupCurrentScope_shared_name`: it is not when two packages
  export the same name.
* `processDesign_reads_deleted`: the second walk deletes an unused module and then, in
  `setup_current_scope` for a later unit, reads it.
* `visitDesigns_emits_twice`: with two designs, the modules of the first are lowered and
  emitted again by the second.
-/
import UhdmPlugin.Registry

namespace UhdmPlugin

open AstNode

/-! ## 1. `setup_current_scope` -/

/-- The entries one member of package `pkg` writes into `current_scope`, in order.
`o->str.substr(1)` throws on an empty name. -/
def memberEntries (pkg o : AstNode) : Option Scope :=
  if o.type = .typedef ∨ o.type = .parameter ∨ o.type = .localparam then
    match o.str.data with
    | [] => none
    | _ :: rest => some [(pkg.str ++ "::" ++ String.mk rest, o), (o.str, o)]
  else if o.type = .enum then some ((o.str, o) :: o.children.map fun c => (c.str, c))
  else some []

/-- The entries package `pkg` writes, in order. -/
def packageEntries (pkg : AstNode) : Option Scope :=
  (pkg.children.mapM (memberEntries pkg)).map List.flatten

/-- The entries one entity of `top_nodes` writes: a package's, or none.  A `nullptr`, or an
entity that is no longer live, is dereferenced: undefined behaviour. -/
def entityEntries (live : Nat → Option AstNode) (p : Option Nat) : Option Scope :=
  (p.bind live).bind fun n => if n.type = .package then packageEntries n else some []

/-- `setup_current_scope(top_nodes, ...)`, over an iteration order of `top_nodes`: every
entry written onto `σ`, the last written first. -/
def setupCurrentScope (live : Nat → Option AstNode) :
    List (String × Option Nat) → Scope → Option Scope
  | [], σ => some σ
  | (_, p) :: es, σ => (entityEntries live p).bind fun b => setupCurrentScope live es (b.reverse ++ σ)

/-- The descendants of a node, in the order `visitEachDescendant` visits them. -/
def descendants : AstNode → List AstNode
  | ⟨_, _, _, _, _, _, _, _, _, _, _, _, _, _, _, _, _, _, cs⟩ => descendantsList cs
where
  descendantsList : List AstNode → List AstNode
    | [] => []
    | c :: cs => c :: descendants c ++ descendantsList cs

/-- The declarations `simplify_parameter` writes from a module: its typedefs, parameters
and localparams, in visiting order. -/
def declEntries (m : AstNode) : Scope :=
  (descendants m).filterMap fun d =>
    if d.type = .typedef ∨ d.type = .parameter ∨ d.type = .localparam then some (d.str, d)
    else none

/-- The scope `simplify_parameter(parameter, module)` folds the parameter in: the packages,
then the declarations of `current_top_node`, then those of `module`. -/
def simplifyParameterScope (live : Nat → Option AstNode) (es : List (String × Option Nat))
    (top : AstNode) (module : Option AstNode) : Option Scope :=
  (setupCurrentScope live es []).map fun σ =>
    ((module.map declEntries).getD []).reverse ++ (declEntries top).reverse ++ σ

/-! ## 2. The binding does not depend on the order, when no name is shared -/

/-- A lookup in a block written over a scope: the block first. -/
theorem Scope.find_append (b σ : Scope) (name : String) :
    Scope.find (b ++ σ) name = (Scope.find b name).or (Scope.find σ name) := by
  simp [Scope.find, List.find?_append, Option.map_or']

theorem Scope.find_eq_none {b : Scope} {name : String} (h : name ∉ b.map Prod.fst) :
    Scope.find b name = none := by
  simp only [Scope.find, Option.map_eq_none', List.find?_eq_none]
  intro e he hname
  exact h (List.mem_map.2 ⟨e, he, of_decide_eq_true hname⟩)

theorem Scope.mem_of_find {b : Scope} {name : String} {n : AstNode}
    (h : Scope.find b name = some n) : name ∈ b.map Prod.fst := by
  by_contra hn
  rw [Scope.find_eq_none hn] at h
  cases h

/-- Two blocks that write no common name can be written in either order. -/
theorem Scope.find_swap {b₁ b₂ : Scope} (σ : Scope)
    (h : ∀ x ∈ b₁.map Prod.fst, x ∉ b₂.map Prod.fst) :
    Scope.find (b₁ ++ b₂ ++ σ) = Scope.find (b₂ ++ b₁ ++ σ) := by
  funext name
  simp only [List.append_assoc, Scope.find_append]
  rcases h₁ : Scope.find b₁ name with _ | n₁
  · simp
  · rw [Scope.find_eq_none (h name (Scope.mem_of_find h₁))]
    simp

/-- The entities at `e₁` and `e₂` write no common name. -/
def ExportsApart (live : Nat → Option AstNode) (e₁ e₂ : String × Option Nat) : Prop :=
  ∀ b₁ b₂, entityEntries live e₁.2 = some b₁ → entityEntries live e₂.2 = some b₂ →
    ∀ x ∈ b₁.map Prod.fst, x ∉ b₂.map Prod.fst

theorem ExportsApart.symm {live : Nat → Option AstNode} {e₁ e₂ : String × Option Nat}
    (h : ExportsApart live e₁ e₂) : ExportsApart live e₂ e₁ :=
  fun b₁ b₂ h₁ h₂ x hx hx' => h b₂ b₁ h₂ h₁ x hx' hx

section Order

variable (live : Nat → Option AstNode)

/-- Scopes with the same lookups stay so when the same entries are written over both. -/
theorem setupCurrentScope_congr (es : List (String × Option Nat)) {σ₁ σ₂ : Scope}
    (h : Scope.find σ₁ = Scope.find σ₂) :
    (setupCurrentScope live es σ₁).map Scope.find = (setupCurrentScope live es σ₂).map Scope.find := by
  induction es generalizing σ₁ σ₂ with
  | nil => simp [setupCurrentScope, h]
  | cons e es ih =>
    simp only [setupCurrentScope]
    cases entityEntries live e.2 with
    | none => rfl
    | some b =>
      refine ih ?_
      funext name
      rw [Scope.find_append, Scope.find_append, h]

theorem setupCurrentScope_swap {e₁ e₂ : String × Option Nat} (es : List (String × Option Nat))
    (σ : Scope) (h : ExportsApart live e₁ e₂) :
    (setupCurrentScope live (e₁ :: e₂ :: es) σ).map Scope.find =
      (setupCurrentScope live (e₂ :: e₁ :: es) σ).map Scope.find := by
  simp only [setupCurrentScope]
  rcases h₁ : entityEntries live e₁.2 with _ | b₁ <;> rcases h₂ : entityEntries live e₂.2 with _ | b₂
  · rfl
  · rfl
  · rfl
  · simp only [Option.some_bind, ← List.append_assoc]
    refine setupCurrentScope_congr live es (Scope.find_swap σ fun x hx hx' => ?_)
    simp only [List.map_reverse, List.mem_reverse] at hx hx'
    exact h b₁ b₂ h₁ h₂ x hx' hx

/-- The lookups of `setup_current_scope` are the same over every two iteration orders in
which no two entities write a common name. -/
theorem setupCurrentScope_perm_find {es es' : List (String × Option Nat)} (hp : es.Perm es') :
    es.Pairwise (ExportsApart live) → ∀ σ,
      (setupCurrentScope live es σ).map Scope.find = (setupCurrentScope live es' σ).map Scope.find := by
  induction hp with
  | nil => intro _ σ; rfl
  | cons e _ ih =>
    intro hpw σ
    simp only [setupCurrentScope]
    cases entityEntries live e.2 with
    | none => rfl
    | some b => exact ih (List.pairwise_cons.1 hpw).2 _
  | swap e₁ e₂ es =>
    intro hpw σ
    exact setupCurrentScope_swap live es σ
      ((List.pairwise_cons.1 hpw).1 e₁ (List.mem_cons_self _ _))
  | trans p₁ _ ih₁ ih₂ =>
    intro hpw σ
    exact (ih₁ hpw σ).trans (ih₂ (hpw.perm p₁ ExportsApart.symm) σ)

/-- **The binding is the same for every iteration order**, for `setup_current_scope` and for
the scope `simplify_parameter` folds a parameter in, when no name is written by two
entities of the registry. -/
theorem setupCurrentScope_perm {es es' : List (String × Option Nat)} (hp : es.Perm es')
    (hd : es.Pairwise (ExportsApart live)) :
    (setupCurrentScope live es []).map Scope.find = (setupCurrentScope live es' []).map Scope.find ∧
      ∀ top module, (simplifyParameterScope live es top module).map Scope.find =
        (simplifyParameterScope live es' top module).map Scope.find := by
  have h := setupCurrentScope_perm_find live hp hd []
  refine ⟨h, fun top module => ?_⟩
  have hfind : ∀ es, (simplifyParameterScope live es top module).map Scope.find =
      ((setupCurrentScope live es []).map Scope.find).map fun F name =>
        (Scope.find (((module.map declEntries).getD []).reverse ++ (declEntries top).reverse)
          name).or (F name) := by
    intro es
    simp only [simplifyParameterScope, Option.map_map, Function.comp_def]
    congr
    funext σ name
    rw [Scope.find_append]
  rw [hfind, hfind, h]

/-- A parameter `name = v`. -/
def namedParam (name : String) (v : Int) : AstNode :=
  { AstNode.new .parameter with str := name, children := [mkconstInt v] }

/-- A package `name` holding `members`. -/
def package (name : String) (members : List AstNode) : AstNode :=
  { AstNode.new .package with str := name, children := members }

/-- Packages `\P`, exporting `\WIDTH`, and `\R`, exporting `\DEPTH`. -/
def disjointPackages (a : Nat) : Option AstNode :=
  [package "\\P" [namedParam "\\WIDTH" 0], package "\\R" [namedParam "\\DEPTH" 1]][a]?

theorem setupCurrentScope_perm_disjoint :
    [("\\P", some 0), ("\\R", some 1)].Perm [("\\R", some 1), ("\\P", some 0)] ∧
      [("\\P", some 0), ("\\R", some 1)].Pairwise (ExportsApart disjointPackages) ∧
      ((setupCurrentScope disjointPackages [("\\P", some 0), ("\\R", some 1)] []).map Scope.find =
          (setupCurrentScope disjointPackages [("\\R", some 1), ("\\P", some 0)] []).map
            Scope.find ∧
        ∀ top module,
          (simplifyParameterScope disjointPackages [("\\P", some 0), ("\\R", some 1)] top
              module).map Scope.find =
            (simplifyParameterScope disjointPackages [("\\R", some 1), ("\\P", some 0)] top
              module).map Scope.find) :=
  have hp : [("\\P", some 0), ("\\R", some 1)].Perm [("\\R", some 1), ("\\P", some 0)] :=
    List.Perm.swap _ _ []
  have hd : [("\\P", some 0), ("\\R", some 1)].Pairwise (ExportsApart disjointPackages) := by
    refine List.pairwise_pair.2 fun b₁ b₂ h₁ h₂ x hx hx' => ?_
    have e₁ : entityEntries disjointPackages (some 0) = some
        [("\\P::WIDTH", namedParam "\\WIDTH" 0), ("\\WIDTH", namedParam "\\WIDTH" 0)] := rfl
    have e₂ : entityEntries disjointPackages (some 1) = some
        [("\\R::DEPTH", namedParam "\\DEPTH" 1), ("\\DEPTH", namedParam "\\DEPTH" 1)] := rfl
    obtain rfl := Option.some.inj (e₁.symm.trans h₁)
    obtain rfl := Option.some.inj (e₂.symm.trans h₂)
    simp only [List.map_cons, List.map_nil, List.mem_cons, List.not_mem_nil, or_false] at hx hx'
    rcases hx with rfl | rfl <;> rcases hx' with h | h <;> exact absurd h (by decide)
  ⟨hp, hd, setupCurrentScope_perm disjointPackages hp hd⟩

/-- Packages `\P` and `\Q`, both exporting a parameter `\WIDTH`, the first `0`, the
second `1`. -/
def twoPackages (a : Nat) : Option AstNode :=
  [package "\\P" [namedParam "\\WIDTH" 0], package "\\Q" [namedParam "\\WIDTH" 1]][a]?

/-- `\WIDTH` names the parameter of the package the walk meets last. -/
theorem setupCurrentScope_shared_name :
    [("\\P", some 0), ("\\Q", some 1)].Perm [("\\Q", some 1), ("\\P", some 0)] ∧
      (setupCurrentScope twoPackages [("\\P", some 0), ("\\Q", some 1)] []).map
        (Scope.find · "\\WIDTH") = some (some (namedParam "\\WIDTH" 1)) ∧
      (setupCurrentScope twoPackages [("\\Q", some 1), ("\\P", some 0)] []).map
        (Scope.find · "\\WIDTH") = some (some (namedParam "\\WIDTH" 0)) :=
  ⟨List.Perm.swap _ _ [], rfl, rfl⟩

end Order

/-! ## 3. `process_design` and `visit_designs` -/

/-- What lowering a unit needs from outside `process_design`: the Yosys hooks `simplify`
reaches, the fuel the model of `simplify` runs on, and `check_memories`. -/
structure Lowering where
  ys : Yosys
  fuel : Nat
  /-- `check_memories(unit)`: the unit with its `force_convert` marks, or a failed
  `log_assert`. -/
  checkMemories : AstNode → Option AstNode

/-- Why lowering a design stops. -/
inductive DesignError
  /-- A visit failed: a `log_assert` or undefined behaviour in `process_module`. -/
  | visit
  /-- The walk read the entity of `key`, deleted before. -/
  | deleted (key : String)
  /-- `setup_current_scope` for the unit `key` dereferenced a deleted entity or a
  `nullptr`, or threw. -/
  | scope (key : String)
  /-- `check_memories` or `simplify` failed on the unit `key`. -/
  | lowering (key : String)
  deriving DecidableEq, Repr

/-- The registry while designs are lowered: the addresses deleted so far, the children of
the current `AST_DESIGN`, and (ghost) the units lowered so far, in order. -/
structure DesignState where
  reg : Registry
  freed : List Nat
  design : List Nat
  lowered : List Nat

namespace DesignState

def empty : DesignState := ⟨Registry.empty, [], [], []⟩

/-- The entity at `a`, unless it was deleted. -/
def live (st : DesignState) (a : Nat) : Option AstNode :=
  if a ∈ st.freed then none else st.reg.heap[a]?

end DesignState

/-- The entries of `top_nodes`, in an iteration order of its keys. -/
def entriesOf (r : Registry) (order : List String) : List (String × Option Nat) :=
  order.filterMap fun k => (r.topNodes k).map fun p => (k, p)

/-- `get_bool_attribute(ID::partial)`. -/
def isPartial (n : AstNode) : Bool :=
  match n.attr "partial" with
  | some v => v ≠ 0
  | none => false

variable (lw : Lowering)

/-- `check_memories`, `setup_current_scope`, `simplify` and `clear_current_scope` on the unit
`key` at `a`; `check_memories` changes the unit in place before the scope is set up. -/
def lowerUnit (es : List (String × Option Nat)) (key : String) (a : Nat) (n : AstNode)
    (st : DesignState) : Except DesignError DesignState :=
  match lw.checkMemories n with
  | none => .error (.lowering key)
  | some n =>
    let st := { st with reg := st.reg.write a n }
    match setupCurrentScope st.live es [] with
    | none => .error (.scope key)
    | some σ =>
      match simplify lw.ys lw.fuel σ none n with
      | none => .error (.lowering key)
      | some (n, _) => .ok { st with reg := st.reg.write a n, lowered := st.lowered ++ [a] }

/-- The first walk of `process_design`: the packages are lowered. -/
def lowerPackages (es : List (String × Option Nat)) :
    List (String × Option Nat) → DesignState → Except DesignError DesignState
  | [], st => .ok st
  | (_, none) :: rest, st => lowerPackages es rest st
  | (k, some a) :: rest, st =>
    match st.live a with
    | none => .error (.deleted k)
    | some n =>
      if n.type = .package then (lowerUnit lw es k a n st).bind (lowerPackages es rest)
      else lowerPackages es rest st

/-- The second walk of `process_design`: a `partial` entity is deleted, with its entry left
in the map; a package goes to the front of the design; any other unit is lowered and goes
to its end. -/
def emitAll (es : List (String × Option Nat)) :
    List (String × Option Nat) → DesignState → Except DesignError DesignState
  | [], st => .ok st
  | (_, none) :: rest, st => emitAll es rest st
  | (k, some a) :: rest, st =>
    match st.live a with
    | none => .error (.deleted k)
    | some n =>
      if isPartial n then emitAll es rest { st with freed := a :: st.freed }
      else if n.type = .package then emitAll es rest { st with design := a :: st.design }
      else (lowerUnit lw es k a n st).bind fun st =>
        emitAll es rest { st with design := st.design ++ [a] }

/-- `process_design` after its visits: both walks over one iteration order of `top_nodes`,
into a new `AST_DESIGN`. -/
def processDesign (order : List String) (st : DesignState) : Except DesignError DesignState :=
  let es := entriesOf st.reg order
  (lowerPackages lw es es { st with design := [] }).bind (emitAll lw es es)

/-- `shared.top_nodes[node->str] = node`, for the node a visit returned. -/
def register (r : Registry) : Returned → Option Registry
  | .entity a => r.heap[a]?.map fun n => r.assign n.str a
  | .cell c => some ((r.alloc c).1.assign c.str (r.alloc c).2)

/-- The visits of `process_design`: `process_module` on each object, its result
registered. -/
def visitObjects (fe : Frontend) : Registry → List ModuleObj → Option Registry
  | r, [] => some r
  | r, obj :: objs =>
    (processModule fe r obj).bind fun (r, ret) => (register r ret).bind (visitObjects fe · objs)

/-- `visit_designs`: each design visited and lowered over the one registry, and the children
of all its `AST_DESIGN`s, in order. -/
def visitDesigns (fe : Frontend) :
    List (List ModuleObj × List String) → DesignState → Except DesignError (DesignState × List Nat)
  | [], st => .ok (st, [])
  | (objs, order) :: ds, st =>
    match visitObjects fe st.reg objs with
    | none => .error .visit
    | some r =>
      (processDesign lw order { st with reg := r }).bind fun st =>
        (visitDesigns fe ds st).map fun (st', out) => (st', st.design ++ out)

/-! ## 4. A deleted entity read, and a design lowered twice -/

/-- `simplify` with no Yosys rewriting, enough fuel for the units below, and no memories. -/
def Lowering.idle : Lowering := ⟨Yosys.idle, 8, some⟩

/-- The definition of module `defName`, with nothing in it. -/
def moduleDef (defName : String) : ModuleObj :=
  { defName := defName, name := none, cellInstance := false, paramAssigns := [], typedefs := [],
    freshChildren := [], foundChildren := [], instChildren := [], ports := [] }

/-- A design whose module `unused` is defined only among all modules, so it stays
`partial`, and whose `top` is defined there and again among the top modules.  When the walk
meets `\unused` before `\top`, it deletes `\unused` and then, setting up the scope of
`\top`, reads it; in the other order the design lowers `\top` alone. -/
theorem processDesign_reads_deleted :
    visitDesigns Lowering.idle Frontend.idle
        [([moduleDef "work@unused", moduleDef "work@top", moduleDef "work@top"],
          ["\\unused", "\\top"])] DesignState.empty = .error (.scope "\\top") ∧
      (visitDesigns Lowering.idle Frontend.idle
        [([moduleDef "work@unused", moduleDef "work@top", moduleDef "work@top"],
          ["\\top", "\\unused"])] DesignState.empty).map (·.2) = .ok [1] :=
  ⟨rfl, rfl⟩

/-- Two designs, the first defining module `a`, the second module `b`: the second
`process_design` walks the registry the first left, so `a` (address `0`) is lowered twice
and emitted twice. -/
theorem visitDesigns_emits_twice :
    (visitDesigns Lowering.idle Frontend.idle
        [([moduleDef "work@a", moduleDef "work@a"], ["\\a"]),
          ([moduleDef "work@b", moduleDef "work@b"], ["\\a", "\\b"])] DesignState.empty).map
      (fun p => (p.2, p.1.lowered)) = .ok ([0, 0, 1], [0, 0, 1]) :=
  rfl

end UhdmPlugin
