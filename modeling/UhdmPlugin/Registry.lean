/-
# The module registry: `process_module` and `shared.top_nodes`

`process_module` handles a module object of the UHDM tree in one of two ways.  A
definition (`vpiName` absent, or equal to `vpiDefName`) fills the entity registered under
its type name, or registers a new one marked `partial = 1`.  An instantiation serialises
its parameter assignments into `module_parameters`, derives from them the `module_name`
Yosys gives a specialised module, and binds its cell to the entity registered under that
name: the one found there, or a clone of the generic entity registered under the bare type
name, or, when there is no generic yet, a placeholder marked `partial = 2`.

`shared.top_nodes` maps names to pointers, and its `operator[]` inserts a `nullptr` under a
name it does not find, so the model keeps the map and the entities apart: `Registry` is the
map -- `none` for an absent key, `some none` for a `nullptr` -- and a heap of entities.  A
call is atomic: the nodes its visits hand to `add_or_replace_child` are inputs, built before.

* `moduleName_ignores_high_bits`: the serialisation writes a value as its width and its
  32-bit `integer` field, so instantiations whose values differ only above bit 31 are bound
  to one specialised module.
* `processModule_registry`: from every registry that `process_module` calls reach, a call
  keeps every key mapped to an entity named by that key and never rebinds a key.  An
  instantiation returns a cell naming the module name it derives, bound to the entity
  already registered under that name (with no clone) or, the first time, to a clone of the
  generic renamed to it; and it leaves the generic untouched when its serialisation is not
  empty.
-/
import UhdmPlugin.Children

namespace UhdmPlugin

open AstNode

/-! ## 1. Names -/

/-- `sanitize_symbol_name`: what follows the last `@`, prefixed with `\`. -/
def sanitizeSymbolName (name : String) : String :=
  if name = "" then "" else String.mk ('\\' :: (name.data.reverse.takeWhile (· ≠ '@')).reverse)

/-- What follows the first `::`. -/
def afterPackageSep : List Char → Option (List Char)
  | ':' :: ':' :: rest => some rest
  | _ :: rest => afterPackageSep rest
  | [] => none

/-- `strip_package_name`: `pkg::name` becomes `\name`. -/
def stripPackageName (name : String) : String :=
  match afterPackageSep name.data with
  | some rest => String.mk ('\\' :: rest)
  | none => name

/-- The value of the low bits of a constant, least significant first. -/
def bitsNat : List RtlilState → Nat
  | [] => 0
  | b :: bs => (if b = .s1 then 1 else 0) + 2 * bitsNat bs

/-- `AST::AstNode::mkconst_bits(bits, false)`, as `const2ast` builds a sized literal: Yosys
keeps the low 32 bits in the `uint32_t` `integer`. -/
def mkconstBits (v : List RtlilState) : AstNode :=
  { AstNode.new .constant with bits := v, integer := bitsNat (v.take 32) }

/-- The text of a parameter's value: its string, or else its width and `integer`, which
`std::to_string` prints as the `uint32_t` it is. -/
def valueText (c : AstNode) : String :=
  if c.str ≠ "" then c.str else toString c.bits.length ++ "'d" ++ toString (u32 c.integer)

/-- One `name=value` piece of `module_parameters`. -/
def paramPiece (node c : AstNode) : String := node.str ++ "=" ++ valueText c

/-- `module_name`: the name Yosys gives the module specialised with `params`. -/
def moduleName (sha1 : String → String) (type params : String) : String :=
  if params.utf8ByteSize > 60 then "$paramod$" ++ sha1 params ++ type
  else if params ≠ "" then "$paramod" ++ type ++ params
  else type

/-! ## 2. The registry -/

/-- `shared.top_nodes`, the entities its pointers point to, and `shared.current_top_node`. -/
structure Registry where
  /-- `top_nodes`: absent (`none`), a `nullptr` (`some none`), or a pointer. -/
  topNodes : String → Option (Option Nat)
  /-- The module entities, by address. -/
  heap : List AstNode
  currentTop : Option Nat

namespace Registry

def empty : Registry := ⟨fun _ => none, [], none⟩

/-- `top_nodes.count(k)`. -/
def count (r : Registry) (k : String) : Bool := (r.topNodes k).isSome

/-- `top_nodes[k]` read: a `nullptr` is inserted under an absent key. -/
def index (r : Registry) (k : String) : Registry × Option Nat :=
  match r.topNodes k with
  | some p => (r, p)
  | none => ({ r with topNodes := Function.update r.topNodes k (some none) }, none)

/-- `top_nodes[k] = a`. -/
def assign (r : Registry) (k : String) (a : Nat) : Registry :=
  { r with topNodes := Function.update r.topNodes k (some (some a)) }

/-- `new` or `clone()`: a fresh entity. -/
def alloc (r : Registry) (n : AstNode) : Registry × Nat :=
  ({ r with heap := r.heap ++ [n] }, r.heap.length)

/-- The entity at `a` is now `n`. -/
def write (r : Registry) (a : Nat) (n : AstNode) : Registry :=
  { r with heap := r.heap.set a n }

/-- The entity `top_nodes[k]` points to. -/
def deref (r : Registry) (k : String) : Option AstNode :=
  (r.topNodes k).join.bind fun a => r.heap[a]?

end Registry

/-- What `process_module` calls that is outside it: Yosys's `sha1` and its `simplify` as
`simplify_parameter` runs it, and `move_type_to_new_typedef`, which only adds children to
the module. -/
structure Frontend where
  sha1 : String → String
  /-- `simplify_parameter(node, module)`: the parameter as Yosys's `simplify` folds it. -/
  simplifyParameter : Registry → AstNode → Option AstNode → AstNode
  /-- `move_type_to_new_typedef(module, type)`, on the module's children. -/
  moveTypeToNewTypedef : List AstNode → AstNode → List AstNode

/-- A module object of the UHDM tree, with what the visits of `process_module` produce from
it. -/
structure ModuleObj where
  /-- `vpiDefName`. -/
  defName : String
  /-- `vpiName`, when set. -/
  name : Option String
  /-- `vpiCellInstance`. -/
  cellInstance : Bool
  /-- The nodes of `vpiParamAssign`, as `process_param_assign` builds them. -/
  paramAssigns : List AstNode
  /-- The nodes of `vpiTypedef`, for a definition seen for the first time. -/
  typedefs : List AstNode
  /-- The children a definition seen for the first time visits. -/
  freshChildren : List AstNode
  /-- The children a definition already registered visits. -/
  foundChildren : List AstNode
  /-- The variables, nets, interfaces, modules, ports and generate scopes of an instance. -/
  instChildren : List AstNode
  /-- The ports of an instance, by name, with their high connections. -/
  ports : List (Option String × Option AstNode)

/-- `name`: `vpiName`, or `vpiDefName` when it is not set. -/
def ModuleObj.instName (obj : ModuleObj) : String := obj.name.getD obj.defName

/-- `type`: the sanitized definition name without its package. -/
def ModuleObj.type (obj : ModuleObj) : String := stripPackageName (sanitizeSymbolName obj.defName)

/-- What `process_module` leaves in `current_node`: the module entity of a definition, or
the cell of an instantiation. -/
inductive Returned
  | entity (a : Nat)
  | cell (c : AstNode)

variable (fe : Frontend)

/-! ## 3. An instantiation -/

/-- The `log_assert` after `simplify_parameter`: the value folded to a constant or a real. -/
def folded (node : AstNode) : Option AstNode :=
  node.children.head?.bind fun c =>
    if c.type = .constant ∨ c.type = .realvalue then some node else none

/-- A parameter of the first pass, folded against the generic when its value is not a
constant and the generic is registered. -/
def foldFirst (r : Registry) (type : String) (node c : AstNode) : Option AstNode :=
  if c.type ≠ .constant ∧ r.count type then
    folded (fe.simplifyParameter r node (r.deref type))
  else some node

/-- The first pass over `vpiParamAssign`: `module_parameters`.  Only a parameter of a
registered type is written. -/
def paramsText (r : Registry) (type : String) : List AstNode → Option String
  | [] => some ""
  | node :: nodes =>
    if node.type = .parameter then
      node.children.head?.bind fun c =>
      (foldFirst fe r type node c).bind fun node =>
      node.children.head?.bind fun c =>
      (paramsText r type nodes).map fun rest =>
        (if r.count type then paramPiece node c else "") ++ rest
    else paramsText r type nodes

/-- A placeholder for a module with no definition yet. -/
def placeholder (type : String) : AstNode :=
  ({ AstNode.new .module with str := type }).setAttr "partial" 2

/-- The lines that find `module_node`: the entity registered under `module_name`; else a
clone of the generic when the parameters are not empty, or the generic itself; else a
placeholder (cloned when the parameters are not empty), with `cell_instance = 1` and
`module_name = type`. -/
def resolveModule (r : Registry) (type params moduleName : String) (cellInstance : Bool) :
    Option (Registry × Nat × AstNode × Bool × String) :=
  match r.index moduleName with
  | (r, some a) => r.heap[a]?.map fun n => (r, a, n, cellInstance, moduleName)
  | (r, none) =>
    match r.index type with
    | (r, some g) => r.heap[g]?.map fun n =>
      if params ≠ "" then ((r.alloc n).1, (r.alloc n).2, n, cellInstance, moduleName)
      else (r, g, n, cellInstance, moduleName)
    | (r, none) =>
      let (r, a) := r.alloc (placeholder type)
      if params ≠ "" then
        some ((r.alloc (placeholder type)).1, (r.alloc (placeholder type)).2, placeholder type,
          true, type)
      else some (r, a, placeholder type, true, type)

/-- `module_node->str = module_name`, `top_nodes[module_node->str] = module_node`, and the
`whitebox` attribute of a cell instance. -/
def bindModule (r : Registry) (a : Nat) (n : AstNode) (moduleName : String)
    (cellInstance : Bool) : Registry × AstNode :=
  let n := { n with str := moduleName }
  let n := if cellInstance then n.setAttr "whitebox" 1 else n
  ((r.write a n).assign moduleName a, n)

/-- The parameter or localparam of the module that an assignment overrides. -/
def overridden (m node : AstNode) : Option AstNode :=
  m.children.find? fun c =>
    (c.type = .parameter ∨ c.type = .localparam) ∧ c.str = node.str ∧ c.type ≠ .realvalue

/-- `!node->children.empty() && node->children[0]->type != AST_CONSTANT`. -/
def nonConstant (node : AstNode) : Bool :=
  match node.children with
  | c :: _ => c.type ≠ .constant
  | [] => false

/-- One assignment of the second pass: an `AST_PARASET` for the cell when the override is
left to Yosys and differs from the parameter, or an `add_or_replace_child` into the
module. -/
def overrideParam (cellInstance : Bool) (m node : AstNode) : Option (AstNode × List AstNode) :=
  match overridden m node with
  | some p =>
    if p.type = .parameter ∧ (cellInstance ∨ nonConstant node) then
      node.children.head?.bind fun nc => p.children.head?.map fun pc =>
        if u32 nc.integer ≠ u32 pc.integer ∨ nc.str ≠ pc.str then
          (m, [{ node with type := .paraset }])
        else (m, [])
    else (addOrReplaceChild m.children node).map fun cs => ({ m with children := cs }, [])
  | none => some (m, if m.attr "partial" = some 2 then [{ node with type := .paraset }] else [])

/-- An assignment of the second pass, folded against the module when its value is not a
constant and `top_nodes[type]` is set. -/
def foldSecond (r : Registry) (type : String) (m node c : AstNode) : Option (Registry × AstNode) :=
  if c.type ≠ .constant then
    match r.index type with
    | (r, some _) => (folded (fe.simplifyParameter r node (some m))).map fun node => (r, node)
    | (r, none) => some (r, node)
  else some (r, node)

/-- The second pass over `vpiParamAssign`: the overrides, and the `AST_PARASET`s of the
cell. -/
def secondPass (type : String) (cellInstance : Bool) :
    Registry → AstNode → List AstNode → Option (Registry × AstNode × List AstNode)
  | r, m, [] => some (r, m, [])
  | r, m, node :: nodes =>
    node.children.head?.bind fun c =>
    (foldSecond fe r type m node c).bind fun (r, node) =>
    (overrideParam cellInstance m node).bind fun (m, out) =>
    (secondPass type cellInstance r m nodes).map fun (r, m, rest) => (r, m, out ++ rest)

/-- The `keep` attribute, the end of `partial = 1`, and the instance's own children. -/
def finishModule (obj : ModuleObj) (n : AstNode) : Option AstNode :=
  let n := n.setAttr "keep" 1
  let n := if n.attr "partial" = some 1 then n.eraseAttr "partial" else n
  (obj.instChildren.foldlM addOrReplaceChild n.children).map fun cs => { n with children := cs }

/-- `make_cell`'s port connection: an `AST_ARGUMENT` named after the port. -/
def portArgument (port : Option String × Option AstNode) : AstNode :=
  { AstNode.new .argument with
    str := (port.1.map sanitizeSymbolName).getD ""
    children := port.2.toList }

/-- What the instance branch does once it has `module_node` at `a`: it renames and binds
the entity, runs the second pass, finishes the entity, and builds the cell named `name`,
whose first child, an `AST_CELLTYPE`, names the entity. -/
def specialise (r : Registry) (obj : ModuleObj) (name : String) (a : Nat) (n : AstNode)
    (moduleName : String) (cellInstance : Bool) : Option (Registry × AstNode) :=
  let (r, n) := bindModule r a n moduleName cellInstance
  (secondPass fe obj.type cellInstance r n obj.paramAssigns).bind fun (r, n, parasets) =>
  (finishModule obj n).map fun n =>
    (r.write a n, { AstNode.new .cell with
      str := name
      children := { AstNode.new .celltype with str := n.str } :: parasets ++
        obj.ports.map portArgument })

/-- The instance branch of `process_module`: the registry after it, and the cell. -/
def instantiate (r : Registry) (obj : ModuleObj) (name : String) : Option (Registry × AstNode) :=
  (paramsText fe r obj.type obj.paramAssigns).bind fun params =>
  (resolveModule r obj.type params (moduleName fe.sha1 obj.type params) obj.cellInstance).bind
    fun (r, a, n, cellInstance, moduleName) =>
  specialise fe r obj name a n moduleName cellInstance

/-! ## 4. A definition, and the whole call -/

/-- The definition branch of `process_module`: the entity it fills or registers. -/
def define (r : Registry) (obj : ModuleObj) : Option (Registry × Nat) :=
  match r.topNodes obj.type with
  | some p => p.bind fun a => r.heap[a]?.bind fun m =>
    (obj.foundChildren.foldlM addOrReplaceChild m.children).map fun cs =>
      (({ r with currentTop := some a }).write a ({ m with children := cs }.eraseAttr "partial"), a)
  | none =>
    let m := ({ AstNode.new .module with str := obj.type }).setAttr "partial" 1
    let (r, a) := r.alloc m
    let r := { r.assign obj.type a with currentTop := some a }
    let cs := obj.typedefs.foldl fe.moveTypeToNewTypedef m.children
    ((obj.freshChildren.filter fun n => !(n.type = .assign ∧ n.children.length < 2)).foldlM
      addOrReplaceChild cs).map fun cs => (r.write a { m with children := cs }, a)

/-- `process_module`: an instantiation when `vpiDefName` differs from `vpiName`. -/
def processModule (r : Registry) (obj : ModuleObj) : Option (Registry × Returned) :=
  if obj.defName ≠ obj.instName then
    (instantiate fe r obj (stripPackageName (sanitizeSymbolName obj.instName))).map
      fun (r, c) => (r, .cell c)
  else (define fe r obj).map fun (r, a) => (r, .entity a)

/-! ## 5. The registry invariant -/

namespace Registry

@[simp] theorem topNodes_write (r : Registry) (a : Nat) (n : AstNode) :
    (r.write a n).topNodes = r.topNodes := rfl

@[simp] theorem heap_write (r : Registry) (a : Nat) (n : AstNode) :
    (r.write a n).heap = r.heap.set a n := rfl

@[simp] theorem topNodes_assign (r : Registry) (k : String) (a : Nat) :
    (r.assign k a).topNodes = Function.update r.topNodes k (some (some a)) := rfl

@[simp] theorem heap_assign (r : Registry) (k : String) (a : Nat) : (r.assign k a).heap = r.heap :=
  rfl

theorem index_of_some {r : Registry} {k : String} {p : Option Nat} (h : r.topNodes k = some p) :
    r.index k = (r, p) := by
  simp [index, h]

theorem index_of_none {r : Registry} {k : String} (h : r.topNodes k = none) :
    r.index k = ({ r with topNodes := Function.update r.topNodes k (some none) }, none) := by
  simp [index, h]

end Registry

/-- **Every key is bound to an entity named by that key**: the map holds no `nullptr`, and
every pointer points to an entity whose `str` is its key. -/
structure RegistryOk (r : Registry) : Prop where
  noNull : ∀ k, r.topNodes k ≠ some none
  named : ∀ k a, r.topNodes k = some (some a) → ∃ n, r.heap[a]? = some n ∧ n.str = k

namespace RegistryOk

theorem empty : RegistryOk Registry.empty := ⟨fun _ => nofun, fun _ _ => nofun⟩

variable {r : Registry} (hr : RegistryOk r)
include hr

theorem lt {k : String} {a : Nat} (h : r.topNodes k = some (some a)) : a < r.heap.length := by
  obtain ⟨n, hn, -⟩ := hr.named k a h
  exact (List.getElem?_eq_some_iff.1 hn).1

/-- No entity is registered under two names. -/
theorem inj {k k' : String} {a : Nat} (h : r.topNodes k = some (some a))
    (h' : r.topNodes k' = some (some a)) : k = k' := by
  obtain ⟨n, hn, rfl⟩ := hr.named k a h
  obtain ⟨n', hn', rfl⟩ := hr.named k' a h'
  rw [hn] at hn'
  exact congrArg AstNode.str (Option.some.inj hn')

theorem of_count {k : String} (h : r.count k = true) : ∃ a, r.topNodes k = some (some a) := by
  rcases hk : r.topNodes k with _ | _ | a
  · simp [Registry.count, hk] at h
  · exact absurd hk (hr.noNull k)
  · exact ⟨a, rfl⟩

/-- An entity found under `M`, or a fresh one, is pointed to by `M` alone. -/
theorem only_key {M : String} {a : Nat} {X : Prop}
    (hcase : (r.topNodes M = some (some a) ∧ X) ∨ (r.topNodes M = none ∧ r.heap.length ≤ a))
    {k : String} (hk : r.topNodes k = some (some a)) : k = M := by
  rcases hcase with ⟨hfound, -⟩ | ⟨-, hle⟩
  · exact hr.inj hk hfound
  · exact absurd (hr.lt hk) (not_lt.2 hle)

/-- A registry that binds `M` to an entity named `M`, and otherwise keeps every key and
every entity another key points to, keeps the invariant. -/
theorem rebind {r' : Registry} {M : String} {a : Nat}
    (htop : r'.topNodes = Function.update r.topNodes M (some (some a)))
    (ha : ∃ n, r'.heap[a]? = some n ∧ n.str = M)
    (hframe : ∀ b, b < r.heap.length → b ≠ a → r'.heap[b]? = r.heap[b]?)
    (hfresh : ∀ k, k ≠ M → r.topNodes k ≠ some (some a)) : RegistryOk r' := by
  refine ⟨fun k => ?_, fun k b hk => ?_⟩
  · rw [htop, Function.update_apply]
    split_ifs
    · simp
    · exact hr.noNull k
  · rw [htop, Function.update_apply] at hk
    split_ifs at hk with hkM
    · cases hk
      exact hkM ▸ ha
    · have hb : b ≠ a := fun hb => hfresh k hkM (hb ▸ hk)
      rw [hframe b (hr.lt hk) hb]
      exact hr.named k b hk

end RegistryOk

/-! ## 6. What an instantiation does to the registry -/

/-- Only a registered type gets a non-empty serialisation. -/
theorem paramsText_eq_empty {r : Registry} {type : String} (hc : r.count type = false) :
    ∀ {ps : List AstNode} {p : String}, paramsText fe r type ps = some p → p = ""
  | [], p, h => (Option.some.inj h).symm
  | node :: nodes, p, h => by
    unfold paramsText at h
    by_cases hp : node.type = .parameter
    · simp only [hp, if_true, hc, Bool.false_eq_true, if_false, Option.bind_eq_some,
        Option.map_eq_some'] at h
      obtain ⟨-, -, -, -, -, -, rest, hrest, rfl⟩ := h
      rw [paramsText_eq_empty hc hrest]
      rfl
    · rw [if_neg hp] at h
      exact paramsText_eq_empty hc h

theorem count_of_paramsText {r : Registry} {type p : String} {ps : List AstNode}
    (h : paramsText fe r type ps = some p) (hp : p ≠ "") : r.count type = true := by
  by_contra hc
  exact hp (paramsText_eq_empty fe (Bool.eq_false_iff.2 hc) h)

/-- The specialised name is the type exactly when the serialisation is empty. -/
theorem moduleName_eq_type_iff (sha1 : String → String) (type p : String) :
    moduleName sha1 type p = type ↔ p = "" := by
  constructor
  · intro h
    by_contra hp
    have hlen : 0 < p.length := by
      rcases p with ⟨_ | ⟨c, cs⟩⟩
      · exact absurd rfl hp
      · simp [String.length]
    have h₁ : "$paramod$".length = 9 := rfl
    have h₂ : "$paramod".length = 8 := rfl
    have := congrArg String.length h
    unfold moduleName at this
    split_ifs at this <;> simp only [String.length_append] at this <;> omega
  · rintro rfl
    rfl

theorem type_ne_moduleName {sha1 : String → String} {type p : String} (hp : p ≠ "") :
    type ≠ moduleName sha1 type p := fun h => hp ((moduleName_eq_type_iff _ _ _).1 h.symm)

/-- The cases of `resolveModule` under the invariant: the entity found under `module_name`,
or a fresh one (a clone of the generic, or the placeholder when `module_name` is the type).
`module_name` is never reset, and only its own key may change. -/
theorem resolveModule_spec {r r₁ : Registry} {type p M M' : String} {ci ci' : Bool} {a : Nat}
    {n : AstNode} (hr : RegistryOk r) (hM : M = type ↔ p = "") (hc : p ≠ "" → r.count type = true)
    (h : resolveModule r type p M ci = some (r₁, a, n, ci', M')) :
    M' = M ∧ r₁.heap[a]? = some n ∧ (∀ k, k ≠ M → r₁.topNodes k = r.topNodes k) ∧
      (∃ ext, r₁.heap = r.heap ++ ext) ∧
      ((r.topNodes M = some (some a) ∧ r₁.heap = r.heap) ∨
        (r.topNodes M = none ∧ r.heap.length ≤ a)) := by
  unfold resolveModule at h
  rcases hMk : r.topNodes M with _ | _ | b
  · rw [Registry.index_of_none hMk] at h
    dsimp only at h
    by_cases hp : p = ""
    · -- the placeholder, under the type
      subst hp
      obtain rfl : M = type := hM.2 rfl
      rw [Registry.index_of_some (p := none) (by simp)] at h
      simp only [Registry.alloc, ne_eq, not_true_eq_false, if_false, Option.some.injEq,
        Prod.mk.injEq] at h
      obtain ⟨rfl, rfl, rfl, -, rfl⟩ := h
      exact ⟨rfl, by simp, fun k hk => by simp [Function.update_noteq hk], ⟨_, rfl⟩,
        .inr ⟨rfl, le_refl _⟩⟩
    · -- a clone of the generic
      obtain ⟨g, hg⟩ := hr.of_count (hc hp)
      have htM : type ≠ M := fun ht => hp (hM.1 ht.symm)
      rw [Registry.index_of_some (p := some g) (by simp [Function.update_noteq htM, hg])] at h
      simp only [Option.map_eq_some', hp, ne_eq, not_false_eq_true, if_true, Registry.alloc,
        Prod.mk.injEq] at h
      obtain ⟨n', -, rfl, rfl, rfl, -, rfl⟩ := h
      exact ⟨rfl, by simp, fun k hk => by simp [Function.update_noteq hk], ⟨_, rfl⟩,
        .inr ⟨rfl, le_refl _⟩⟩
  · exact absurd hMk (hr.noNull M)
  · rw [Registry.index_of_some hMk] at h
    simp only [Option.map_eq_some', Prod.mk.injEq] at h
    obtain ⟨n', hn', rfl, rfl, rfl, -, rfl⟩ := h
    exact ⟨rfl, hn', fun _ _ => rfl, ⟨[], by simp⟩, .inl ⟨rfl, rfl⟩⟩

theorem overrideParam_str {ci : Bool} {m node m' : AstNode} {out : List AstNode}
    (h : overrideParam ci m node = some (m', out)) : m'.str = m.str := by
  unfold overrideParam at h
  split at h
  · split_ifs at h
    · simp only [Option.bind_eq_some, Option.map_eq_some'] at h
      obtain ⟨nc, -, pc, -, hx⟩ := h
      split_ifs at hx <;> rw [← (Prod.mk.inj hx).1]
    · simp only [Option.map_eq_some', Prod.mk.injEq] at h
      obtain ⟨-, -, rfl, -⟩ := h
      rfl
  · cases h
    rfl

/-- With the type registered, the second pass changes neither the registry nor the
module's name. -/
theorem secondPass_frame {type : String} {ci : Bool} {r : Registry} {g : Nat}
    (hg : r.topNodes type = some (some g)) {ps : List AstNode} :
    ∀ {m : AstNode} {r' : Registry} {m' : AstNode} {out : List AstNode},
      secondPass fe type ci r m ps = some (r', m', out) → r' = r ∧ m'.str = m.str := by
  induction ps with
  | nil =>
    intro m r' m' out h
    simp only [secondPass, Option.some.injEq, Prod.mk.injEq] at h
    obtain ⟨rfl, rfl, -⟩ := h
    exact ⟨rfl, rfl⟩
  | cons node nodes ih =>
    intro m r' m' out h
    simp only [secondPass, Option.bind_eq_some, Option.map_eq_some'] at h
    obtain ⟨c, -, ⟨r₁, node'⟩, hfold, ⟨m₁, out₁⟩, hover, ⟨r₂, m₂, rest⟩, hrest, heq⟩ := h
    simp only [Prod.mk.injEq] at heq
    obtain ⟨rfl, rfl, -⟩ := heq
    have hr₁ : r₁ = r := by
      unfold foldSecond at hfold
      rw [Registry.index_of_some hg] at hfold
      split_ifs at hfold
      · simp only [Option.map_eq_some', Prod.mk.injEq] at hfold
        obtain ⟨-, -, rfl, -⟩ := hfold
        rfl
      · simp only [Option.some.injEq, Prod.mk.injEq] at hfold
        exact hfold.1.symm
    rw [hr₁] at hrest
    obtain ⟨hr₂, hstr⟩ := ih hrest
    exact ⟨hr₂, hstr.trans (overrideParam_str hover)⟩

theorem finishModule_str {obj : ModuleObj} {n n' : AstNode} (h : finishModule obj n = some n') :
    n'.str = n.str := by
  simp only [finishModule, Option.map_eq_some'] at h
  obtain ⟨-, -, rfl⟩ := h
  split_ifs <;> rfl

@[simp] theorem str_setAttr (n : AstNode) (name : String) (v : Int) : (n.setAttr name v).str = n.str :=
  rfl

theorem resolveModule_clone {r : Registry} {type p M : String} {ci : Bool} {g : Nat}
    {n₀ : AstNode} (hM : r.topNodes M = none) (htM : type ≠ M)
    (hg : r.topNodes type = some (some g)) (hn₀ : r.heap[g]? = some n₀) (hp : p ≠ "") :
    resolveModule r type p M ci =
      some (((r.index M).1.alloc n₀).1, ((r.index M).1.alloc n₀).2, n₀, ci, M) := by
  have hg' : (Function.update r.topNodes M (some none)) type = some (some g) := by
    rw [Function.update_noteq htM, hg]
  rw [resolveModule, Registry.index_of_none hM]
  dsimp only
  rw [Registry.index_of_some hg']
  simp [hn₀, hp]

/-- **What specialising the entity at `a` does**, the type being bound once `M` is: `M` is
bound to `a`, the entity at `a` is replaced by one named `M`, every other key and entity is
kept, and the cell's first child is an `AST_CELLTYPE` naming `M`. -/
theorem specialise_spec {r r' : Registry} {obj : ModuleObj} {name M : String} {a : Nat}
    {n c : AstNode} {ci : Bool} (hg : ∃ g, Function.update r.topNodes M (some (some a)) obj.type = some (some g))
    (h : specialise fe r obj name a n M ci = some (r', c)) :
    ∃ n', r'.topNodes = Function.update r.topNodes M (some (some a)) ∧
      r'.heap = r.heap.set a n' ∧ n'.str = M ∧ c.type = .cell ∧
      c.children.head? = some { AstNode.new .celltype with str := M } := by
  simp only [specialise, bindModule, Option.bind_eq_some, Option.map_eq_some'] at h
  obtain ⟨⟨r₃, n₃, parasets⟩, hsec, n₄, hfin, heq⟩ := h
  obtain ⟨g, hg⟩ := hg
  obtain ⟨rfl, hstr⟩ := secondPass_frame fe (by simpa using hg) hsec
  have hstr₄ : n₄.str = M := by
    rw [finishModule_str hfin, hstr]
    split_ifs <;> rfl
  obtain ⟨rfl, rfl⟩ := Prod.mk.inj heq
  exact ⟨n₄, by simp, by simp, hstr₄, rfl, by simp [hstr₄]⟩

/-- **What an instantiation does to the registry.**  It binds the name `M` it derives from
its serialisation to an entity named `M` -- the one already bound to `M`, with the heap
unchanged in size, or a fresh one -- keeps every other key and every other entity, and
returns a cell whose type child names `M`. -/
theorem instantiate_spec {r r' : Registry} {obj : ModuleObj} {name : String} {c : AstNode}
    (hr : RegistryOk r) (h : instantiate fe r obj name = some (r', c)) :
    ∃ p a, paramsText fe r obj.type obj.paramAssigns = some p ∧ c.type = .cell ∧
      c.children.head? = some { AstNode.new .celltype with str := moduleName fe.sha1 obj.type p } ∧
      r'.topNodes = Function.update r.topNodes (moduleName fe.sha1 obj.type p) (some (some a)) ∧
      (∃ n, r'.heap[a]? = some n ∧ n.str = moduleName fe.sha1 obj.type p) ∧
      (∀ b, b < r.heap.length → b ≠ a → r'.heap[b]? = r.heap[b]?) ∧
      ((r.topNodes (moduleName fe.sha1 obj.type p) = some (some a) ∧
          r'.heap.length = r.heap.length) ∨
        (r.topNodes (moduleName fe.sha1 obj.type p) = none ∧ r.heap.length ≤ a)) := by
  simp only [instantiate, Option.bind_eq_some] at h
  obtain ⟨p, hp, ⟨r₁, a, n, ci, M'⟩, hres, hspec⟩ := h
  set M := moduleName fe.sha1 obj.type p
  have hM : M = obj.type ↔ p = "" := moduleName_eq_type_iff fe.sha1 obj.type p
  obtain ⟨rfl, hn, hkeep, ⟨ext, hext⟩, hcase⟩ :=
    resolveModule_spec hr hM (count_of_paramsText fe hp) hres
  have htop : Function.update r₁.topNodes M (some (some a)) =
      Function.update r.topNodes M (some (some a)) := by
    funext k
    by_cases hk : k = M
    · subst hk; simp
    · simp [Function.update_noteq hk, hkeep k hk]
  have htype : ∃ g, Function.update r₁.topNodes M (some (some a)) obj.type = some (some g) := by
    by_cases hpe : p = ""
    · exact ⟨a, by rw [hM.2 hpe]; simp⟩
    · obtain ⟨g, hg⟩ := hr.of_count (count_of_paramsText fe hp hpe)
      have htM : obj.type ≠ M := fun ht => hpe (hM.1 ht.symm)
      exact ⟨g, by rw [Function.update_noteq htM, hkeep _ htM, hg]⟩
  obtain ⟨n', htop', hheap, hstr, hcell, hhead⟩ := specialise_spec fe htype hspec
  have ha : a < r₁.heap.length := (List.getElem?_eq_some_iff.1 hn).1
  refine ⟨p, a, hp, hcell, hhead, htop'.trans htop, ⟨n', by simp [hheap, ha], hstr⟩,
    fun b hb hba => ?_, ?_⟩
  · simp [hheap, List.getElem?_set_ne (Ne.symm hba), hext, List.getElem?_append_left hb]
  · exact hcase.imp (fun h => ⟨h.1, by simp [hheap, h.2]⟩) id

/-- **The first instantiation of a specialised name clones the generic**: the read of
`top_nodes[module_name]` inserts a `nullptr`, the generic is cloned to a fresh address, and
the clone is specialised as any found entity is. -/
theorem instantiate_clone {r : Registry} {obj : ModuleObj} {name p : String} {g : Nat}
    {n₀ : AstNode} (hp : paramsText fe r obj.type obj.paramAssigns = some p) (hpe : p ≠ "")
    (hM : r.topNodes (moduleName fe.sha1 obj.type p) = none)
    (hg : r.topNodes obj.type = some (some g)) (hn₀ : r.heap[g]? = some n₀) :
    instantiate fe r obj name =
      specialise fe ((r.index (moduleName fe.sha1 obj.type p)).1.alloc n₀).1 obj name
        ((r.index (moduleName fe.sha1 obj.type p)).1.alloc n₀).2 n₀
        (moduleName fe.sha1 obj.type p) obj.cellInstance := by
  simp only [instantiate, hp, Option.some_bind,
    resolveModule_clone hM (type_ne_moduleName hpe) hg hn₀ hpe]

/-! ## 7. Every call keeps the invariant -/

@[simp] theorem str_eraseAttr (n : AstNode) (name : String) : (n.eraseAttr name).str = n.str := rfl

/-- **What a definition does to the registry**: it binds its type to the entity it fills,
the one already bound there, or a fresh one. -/
theorem define_spec {r r' : Registry} {obj : ModuleObj} {a : Nat} (hr : RegistryOk r)
    (h : define fe r obj = some (r', a)) :
    r'.topNodes = Function.update r.topNodes obj.type (some (some a)) ∧
      (∃ n, r'.heap[a]? = some n ∧ n.str = obj.type) ∧
      (∀ b, b < r.heap.length → b ≠ a → r'.heap[b]? = r.heap[b]?) ∧
      ((r.topNodes obj.type = some (some a) ∧ r'.heap.length = r.heap.length) ∨
        (r.topNodes obj.type = none ∧ r.heap.length ≤ a)) := by
  unfold define at h
  split at h
  · next p hp =>
    simp only [Option.bind_eq_some, Option.map_eq_some', Prod.mk.injEq] at h
    obtain ⟨a', rfl, m, hm, cs, -, rfl, rfl⟩ := h
    obtain ⟨m', hm', hstr⟩ := hr.named _ _ hp
    rw [hm] at hm'
    obtain rfl := Option.some.inj hm'
    have ha : a' < r.heap.length := hr.lt hp
    refine ⟨by simp [hp], ⟨_, List.getElem?_set_self ha, hstr⟩, fun b _ hba => ?_, .inl ⟨hp, by simp⟩⟩
    simp [List.getElem?_set_ne (Ne.symm hba)]
  · next hnone =>
    simp only [Registry.alloc, Option.map_eq_some', Prod.mk.injEq] at h
    obtain ⟨cs, -, rfl, rfl⟩ := h
    refine ⟨by simp, ⟨_, List.getElem?_set_self (by simp), rfl⟩, fun b hb hba => ?_,
      .inr ⟨hnone, le_refl _⟩⟩
    simp [List.getElem?_set_ne (Ne.symm hba), List.getElem?_append_left hb]

/-- The two branches of `process_module`. -/
theorem processModule_cases {r r' : Registry} {obj : ModuleObj} {ret : Returned}
    (h : processModule fe r obj = some (r', ret)) :
    (obj.defName ≠ obj.instName ∧ ∃ c, ret = .cell c ∧
        instantiate fe r obj (stripPackageName (sanitizeSymbolName obj.instName)) = some (r', c)) ∨
      (obj.defName = obj.instName ∧ ∃ a, ret = .entity a ∧ define fe r obj = some (r', a)) := by
  unfold processModule at h
  split_ifs at h with hi
  · obtain ⟨⟨r₁, c⟩, hinst, heq⟩ := Option.map_eq_some'.1 h
    cases heq
    exact .inl ⟨hi, c, rfl, hinst⟩
  · obtain ⟨⟨r₁, a⟩, hd, heq⟩ := Option.map_eq_some'.1 h
    cases heq
    exact .inr ⟨not_not.1 hi, a, rfl, hd⟩

theorem processModule_inst {r r' : Registry} {obj : ModuleObj} {ret : Returned}
    (h : processModule fe r obj = some (r', ret)) (hinst : obj.defName ≠ obj.instName) :
    ∃ c, ret = .cell c ∧
      instantiate fe r obj (stripPackageName (sanitizeSymbolName obj.instName)) = some (r', c) :=
  ((processModule_cases fe h).resolve_right fun hd => hinst hd.1).2

/-- Both branches at once: a call binds one name `M` to an entity named `M`, found there or
fresh, and keeps every other key and every other entity. -/
theorem processModule_binds {r r' : Registry} {obj : ModuleObj} {ret : Returned}
    (hr : RegistryOk r) (h : processModule fe r obj = some (r', ret)) :
    ∃ M a, r'.topNodes = Function.update r.topNodes M (some (some a)) ∧
      (∃ n, r'.heap[a]? = some n ∧ n.str = M) ∧
      (∀ b, b < r.heap.length → b ≠ a → r'.heap[b]? = r.heap[b]?) ∧
      ((r.topNodes M = some (some a) ∧ r'.heap.length = r.heap.length) ∨
        (r.topNodes M = none ∧ r.heap.length ≤ a)) := by
  rcases processModule_cases fe h with ⟨-, c, -, hi⟩ | ⟨-, a, -, hd⟩
  · obtain ⟨p, a, -, -, -, htop, hn, hframe, hcase⟩ := instantiate_spec fe hr hi
    exact ⟨_, a, htop, hn, hframe, hcase⟩
  · exact ⟨_, a, define_spec fe hr hd⟩

/-- **One call keeps the invariant.** -/
theorem processModule_registryOk {r r' : Registry} {obj : ModuleObj} {ret : Returned}
    (hr : RegistryOk r) (h : processModule fe r obj = some (r', ret)) : RegistryOk r' := by
  obtain ⟨M, a, htop, hn, hframe, hcase⟩ := processModule_binds fe hr h
  exact hr.rebind htop hn hframe fun k hk hka => hk (hr.only_key hcase hka)

/-- A call never rebinds a key. -/
theorem processModule_keeps_bindings {r r' : Registry} {obj : ModuleObj} {ret : Returned}
    (hr : RegistryOk r) (h : processModule fe r obj = some (r', ret)) :
    ∀ k b, r.topNodes k = some (some b) → r'.topNodes k = some (some b) := by
  obtain ⟨M, a, htop, -, -, hcase⟩ := processModule_binds fe hr h
  intro k b hk
  rw [htop, Function.update_apply]
  split_ifs with hkM
  · subst hkM
    rcases hcase with ⟨hfound, -⟩ | ⟨hnone, -⟩
    · exact hfound.symm.trans hk
    · exact absurd (hnone.symm.trans hk) nofun
  · exact hk

/-- The registries `process_module` calls reach from an empty one. -/
inductive Reachable : Registry → Prop
  | empty : Reachable Registry.empty
  | step {r r' : Registry} {obj : ModuleObj} {ret : Returned} :
      Reachable r → processModule fe r obj = some (r', ret) → Reachable r'

theorem Reachable.registryOk {r : Registry} (h : Reachable fe r) : RegistryOk r := by
  induction h with
  | empty => exact RegistryOk.empty
  | step _ hstep ih => exact processModule_registryOk fe ih hstep

/-- What a call of `process_module` guarantees about the registry. -/
structure ProcessModuleSpec (r r' : Registry) (obj : ModuleObj) (ret : Returned) : Prop where
  /-- Every key is bound to an entity named by that key. -/
  ok : RegistryOk r'
  /-- No key is rebound. -/
  keeps : ∀ k a, r.topNodes k = some (some a) → r'.topNodes k = some (some a)
  /-- A definition returns the entity its type is bound to. -/
  defines : obj.defName = obj.instName →
    ∃ a, ret = .entity a ∧ r'.topNodes obj.type = some (some a)
  /-- An instantiation returns a cell whose `AST_CELLTYPE` names the module name its
  serialisation derives; that name is bound to an entity of that name, the one it was bound
  to before if any, and then no entity is created. -/
  binds : obj.defName ≠ obj.instName → ∃ p c a,
    paramsText fe r obj.type obj.paramAssigns = some p ∧ ret = .cell c ∧ c.type = .cell ∧
    c.children.head? = some { AstNode.new .celltype with str := moduleName fe.sha1 obj.type p } ∧
    r'.topNodes (moduleName fe.sha1 obj.type p) = some (some a) ∧
    (∃ n, r'.heap[a]? = some n ∧ n.str = moduleName fe.sha1 obj.type p) ∧
    ∀ b, r.topNodes (moduleName fe.sha1 obj.type p) = some (some b) →
      b = a ∧ r'.heap.length = r.heap.length
  /-- The first instantiation of a specialised name registers under it, at a fresh address,
  a clone of the generic renamed to it: the generic copied after `top_nodes[module_name]`
  has inserted its `nullptr`, and specialised. -/
  clones : ∀ p, obj.defName ≠ obj.instName →
    paramsText fe r obj.type obj.paramAssigns = some p → p ≠ "" →
    r.topNodes (moduleName fe.sha1 obj.type p) = none →
    ∃ g n₀ c n, r.topNodes obj.type = some (some g) ∧ r.heap[g]? = some n₀ ∧ ret = .cell c ∧
      r'.topNodes (moduleName fe.sha1 obj.type p) = some (some r.heap.length) ∧
      r'.heap = r.heap ++ [n] ∧ n.str = moduleName fe.sha1 obj.type p ∧
      specialise fe ((r.index (moduleName fe.sha1 obj.type p)).1.alloc n₀).1 obj
        (stripPackageName (sanitizeSymbolName obj.instName))
        ((r.index (moduleName fe.sha1 obj.type p)).1.alloc n₀).2 n₀
        (moduleName fe.sha1 obj.type p) obj.cellInstance = some (r', c)
  /-- An instantiation with a non-empty serialisation leaves the generic bound and as it
  was. -/
  generic : ∀ p, obj.defName ≠ obj.instName →
    paramsText fe r obj.type obj.paramAssigns = some p → p ≠ "" →
      ∃ g, r.topNodes obj.type = some (some g) ∧ r'.topNodes obj.type = some (some g) ∧
        r'.heap[g]? = r.heap[g]?

/-- The first instantiation of a name, specialising a clone of the generic: the heap grows
by one entity named after it, bound to it. -/
theorem clone_spec {r r' : Registry} {obj : ModuleObj} {name M : String} {g : Nat}
    {n₀ c : AstNode} {ci : Bool} (hM : r.topNodes M = none) (htM : obj.type ≠ M)
    (hg : r.topNodes obj.type = some (some g))
    (h : specialise fe ((r.index M).1.alloc n₀).1 obj name ((r.index M).1.alloc n₀).2 n₀ M ci =
      some (r', c)) :
    ∃ n, r'.topNodes M = some (some r.heap.length) ∧ r'.heap = r.heap ++ [n] ∧ n.str = M := by
  rw [Registry.index_of_none hM] at h
  obtain ⟨n, htop, hheap, hstr, -⟩ :=
    specialise_spec fe ⟨g, by simp [Function.update_noteq htM, hg, Registry.alloc]⟩ h
  exact ⟨n, by simp [htop, Registry.alloc], by simp [hheap, Registry.alloc], hstr⟩

/-- **The registry over every sequence of calls.**  From every registry that calls of
`process_module` reach, in any order of definitions and instantiations, each further call
keeps every key bound to an entity named by that key (so no entity is registered twice) and
never rebinds a key.  A definition returns the entity bound to its type.  An instantiation
returns a cell naming the module name it derives and bound to the entity registered under
it: the entity already there, with no clone, or, for the first instantiation of that name,
a clone of the generic renamed to it.  The generic is left unchanged when it specialises. -/
theorem processModule_registry {r r' : Registry} {obj : ModuleObj} {ret : Returned}
    (hr : Reachable fe r) (h : processModule fe r obj = some (r', ret)) :
    ProcessModuleSpec fe r r' obj ret := by
  have hok := hr.registryOk
  refine ⟨processModule_registryOk fe hok h, processModule_keeps_bindings fe hok h, ?_, ?_, ?_, ?_⟩
  · intro hdef
    obtain ⟨-, a, rfl, hd⟩ := (processModule_cases fe h).resolve_left fun hi => hi.1 hdef
    exact ⟨a, rfl, by simp [(define_spec fe hok hd).1]⟩
  · intro hinst
    obtain ⟨c, rfl, hi⟩ := processModule_inst fe h hinst
    obtain ⟨p, a, hp, hcell, hhead, htop, hn, -, hcase⟩ := instantiate_spec fe hok hi
    refine ⟨p, c, a, hp, rfl, hcell, hhead, by simp [htop], hn, fun b hb => ?_⟩
    rcases hcase with ⟨hfound, hlen⟩ | ⟨hnone, -⟩
    · exact ⟨by simpa [hb] using hfound, hlen⟩
    · exact absurd (hnone.symm.trans hb) nofun
  · intro p hinst hp hpe hM
    obtain ⟨c, rfl, hi⟩ := processModule_inst fe h hinst
    obtain ⟨g, hg⟩ := hok.of_count (count_of_paramsText fe hp hpe)
    obtain ⟨n₀, hn₀, -⟩ := hok.named _ _ hg
    rw [instantiate_clone fe hp hpe hM hg hn₀] at hi
    obtain ⟨n, htop, hheap, hstr⟩ := clone_spec fe hM (type_ne_moduleName hpe) hg hi
    exact ⟨g, n₀, c, n, hg, hn₀, rfl, htop, hheap, hstr, hi⟩
  · intro p hinst hp hpe
    obtain ⟨c, -, hi⟩ := processModule_inst fe h hinst
    obtain ⟨p', a, hp', -, -, htop, -, hframe, hcase⟩ := instantiate_spec fe hok hi
    obtain rfl : p' = p := Option.some.inj (hp'.symm.trans hp)
    obtain ⟨g, hg⟩ := hok.of_count (count_of_paramsText fe hp hpe)
    have htM := @type_ne_moduleName fe.sha1 obj.type p' hpe
    have hga : g ≠ a := fun hga => htM (hok.only_key hcase (hga ▸ hg))
    exact ⟨g, hg, by rw [htop, Function.update_noteq htM, hg], hframe g (hok.lt hg) hga⟩

/-! ## 8. Two values, one specialised module -/

/-- A front end whose `simplify` leaves a parameter as it is. -/
def Frontend.idle : Frontend := ⟨fun s => s, fun _ node _ => node, fun cs _ => cs⟩

/-- The parameter assignment `W = v`. -/
def paramW (v : AstNode) : AstNode := { AstNode.new .parameter with str := "\\W", children := [v] }

/-- `module sub #(parameter W = 8)`, a definition. -/
def subDef : ModuleObj :=
  { defName := "work@sub", name := none, cellInstance := false, paramAssigns := [],
    typedefs := [], freshChildren := [paramW (mkconstInt 8)], foundChildren := [],
    instChildren := [], ports := [] }

/-- `sub #(.W(33'h1_0000_0000)) u1`. -/
def instHigh : ModuleObj :=
  { subDef with name := some "u1", paramAssigns := [paramW (mkconstBits (intBits (2 ^ 32) 33))] }

/-- `sub #(.W(33'h0)) u2`. -/
def instZero : ModuleObj :=
  { subDef with name := some "u2", paramAssigns := [paramW (mkconstBits (intBits 0 33))] }

theorem processModule_registry_instHigh :
    ∃ r₁ ret₁ r₂ ret₂, processModule Frontend.idle Registry.empty subDef = some (r₁, ret₁) ∧
      processModule Frontend.idle r₁ instHigh = some (r₂, ret₂) ∧
      ProcessModuleSpec Frontend.idle r₁ r₂ instHigh ret₂ :=
  ⟨_, _, _, _, rfl, rfl,
    processModule_registry Frontend.idle (@Reachable.step Frontend.idle _ _ subDef _ .empty rfl) rfl⟩

/-- Instantiations of `sub` with `W = 2^32` and with `W = 0`, both 33 bits wide, serialise
to the same 8 characters, `\W=33'd0`, and so derive the same `module_name`: the second is
bound to the module specialised for the first, and no module is made for it: the heap
holds the generic and one clone. -/
theorem moduleName_ignores_high_bits (fe : Frontend) :
    (instHigh.paramAssigns.map fun a => a.children.map (·.bits)) ≠
        instZero.paramAssigns.map (fun a => a.children.map (·.bits)) ∧
      ∃ r₁ a r₂ c₂ r₃ c₃, processModule fe Registry.empty subDef = some (r₁, .entity a) ∧
        paramsText fe r₁ instHigh.type instHigh.paramAssigns = some "\\W=33'd0" ∧
        paramsText fe r₁ instZero.type instZero.paramAssigns = some "\\W=33'd0" ∧
        processModule fe r₁ instHigh = some (r₂, .cell c₂) ∧
        processModule fe r₂ instZero = some (r₃, .cell c₃) ∧
        c₂.children.head?.map (·.str) = some "$paramod\\sub\\W=33'd0" ∧
        c₃.children.head?.map (·.str) = some "$paramod\\sub\\W=33'd0" ∧
        r₂.heap.length = 2 ∧ r₃.heap.length = 2 :=
  -- each later `by rfl` runs once the registries before it are assigned
  ⟨by decide, _, _, _, _, _, _, rfl, by rfl, by rfl, by rfl, by rfl, by rfl, by rfl, by rfl, by rfl⟩

end UhdmPlugin
