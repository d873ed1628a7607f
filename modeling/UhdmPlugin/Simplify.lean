/-
# The plugin's `simplify`: the walk that lowers a unit

`process_design` lowers every top-level unit `U` with `setup_current_scope`, then
`simplify(U, nullptr)`, then `clear_current_scope`.  `simplify` walks `U` depth first with
one global `AST_INTERNAL::current_scope`:

* before the children, the first `AST_DOT` child is expanded with `convert_dot` against the
  declaration the node's name maps to, or folded into the name when the name is unknown;
* then the children, left to right, the scope threaded through;
* then the node itself: typedefs and enums are registered; wires and parameters are
  registered and flattened by `convert_packed_unpacked_range`; an identifier naming a
  declaration with several ranges is rewritten by `convert_range`; a named struct is run
  through Yosys's own `simplify` and marked on the declaration it names.

So a declaration is only known to the nodes `simplify` reaches after it.  `Reaches` is the
call tree of the walk, and `simplify_access_after_declaration` says what the walk does to an
access it reaches while the scope maps its name to a flattened declaration.
`simplify_access_one_range` is the case the identifier step leaves to Yosys, a declaration
with one range, and `convertPackedUnpackedRange_flatDecl` says which declarations come out of
`convert_packed_unpacked_range` in the flattened form the first result asks for.
`simplify_access_before_declaration` is an access in a cell connection, which precedes the
nets in a module's children: it is left as it was.
-/
import UhdmPlugin.Struct

namespace UhdmPlugin

open AstNode

/-! ## 1. Yosys's `simplify`, where the plugin calls it -/

/-- What Yosys's own `AstNode::simplify`, run to a fixed point, does on the two kinds of node
the plugin hands it while lowering a unit: a typedef'd declaration in `resolve_wiretype`,
and a named struct.  On a struct it returns the node, which keeps its name, and the entries
it puts into `current_scope`: under the struct's name, and under `name.member` for the
members `make_packed_struct` registers. -/
structure Yosys where
  wire : Scope → AstNode → AstNode
  struct : Scope → AstNode → AstNode × Scope
  struct_str : ∀ σ n, (struct σ n).1.str = n.str
  struct_adds : ∀ σ n, ∀ e ∈ (struct σ n).2, e.1 = n.str ∨ (n.str ++ ".").data <+: e.1.data

variable (ys : Yosys)

/-! ## 2. The code -/

/-- The `AST_DOT` step at the top of `simplify`: the first `AST_DOT` child is expanded
against the declaration the node's name maps to, or, when the name is not in scope, folded
into the name as `name.member` and every child dropped. -/
def expandFirstDot (σ : Scope) (n : AstNode) : Option AstNode :=
  match n.children.find? (·.type = .dot) with
  | none => some n
  | some dot =>
    match σ.find n.str with
    | none => some { n with str := n.str ++ "." ++ String.mk (dot.str.data.drop 1), children := [] }
    | some w => (convertDot w n dot).map fun e => { n with children := [e], basicPrep := true }

/-- The test of the `AST_IDENTIFIER` case: the declaration is a wire or parameter with
ranges, and not exactly one of them. -/
def rewritesAccess (w : AstNode) : Bool :=
  (w.type = .wire || w.type = .parameter || w.type = .localparam) &&
    !((packedOf w).isEmpty && (unpackedOf w).isEmpty) &&
    (packedOf w).length + (unpackedOf w).length != 1

/-- The `AST_IDENTIFIER` case: an access with selectors to such a declaration becomes one
range, `convert_range(node, packed_ranges, unpacked_ranges, 0)`, which sets `basic_prep`. -/
def simplifyIdentifier (σ : Scope) (n : AstNode) : Option AstNode :=
  if n.children.isEmpty || n.basicPrep then some n else
  match σ.find n.str with
  | none => some n
  | some w =>
    if rewritesAccess w then
      (convertRange n (packedOf w) (unpackedOf w) w 0).map fun r =>
        { n with children := [r], basicPrep := true }
    else some n

/-- The parent test of the `AST_STRUCT` case: there is a parent, and it is neither a typedef
nor a struct. -/
def structOwner : Option AstNodeType → Bool
  | some t => t != .typedef && t != .struct
  | none => false

/-- The `AST_STRUCT` case: Yosys's `simplify` runs on a named struct, and the declaration
`current_scope` then maps its name to gets the `wiretype` attribute, pointing at it.  An
unknown name is `nullptr` dereferenced. -/
def simplifyStruct (σ : Scope) (parent : Option AstNodeType) (n : AstNode) :
    Option (AstNode × Scope) :=
  if n.str ≠ "" ∧ structOwner parent then
    let (n, Δ) := ys.struct σ n
    match (Δ ++ σ).find n.str with
    | none => none
    | some w => some (n, (Δ ++ σ).insert n.str { w with wiretype := true, wiretypeAst := some n })
  else some (n, σ)

/-- The `switch` at the end of `simplify`, on a node whose children are done.  A declaration
is registered before `convert_packed_unpacked_range` runs on it, and the scope entry is the
node itself, so it ends up mapping to the converted node. -/
def simplifyNode (σ : Scope) (parent : Option AstNodeType) (n : AstNode) :
    Option (AstNode × Scope) :=
  match n.type with
  | .typedef | .enum => some (n, σ.insert n.str n)
  | .wire | .parameter | .localparam =>
    (convertPackedUnpackedRange ys.wire (σ.insert n.str n) n).map fun n' => (n', σ.insert n.str n')
  | .identifier => (simplifyIdentifier σ n).map fun n' => (n', σ)
  | .struct => simplifyStruct ys σ parent n
  | _ => some (n, σ)

/-- The loop over the children, left to right, threading `current_scope`. -/
def simplifyChildren (f : Scope → AstNode → Option (AstNode × Scope)) :
    Scope → List AstNode → Option (List AstNode × Scope)
  | σ, [] => some ([], σ)
  | σ, c :: cs => do
    let (c, σ) ← f σ c
    let (cs, σ) ← simplifyChildren f σ cs
    some (c :: cs, σ)

/-- `simplify(current_node, parent_node)`, the parent given by its type.  The expansion of
an `AST_DOT` builds new children, so the walk is not structural in the tree; `fuel` bounds
its depth, and running out of it is `none` like the source's errors. -/
def simplify : Nat → Scope → Option AstNodeType → AstNode → Option (AstNode × Scope)
  | 0, _, _, _ => none
  | fuel + 1, σ, parent, n => do
    let n ← expandFirstDot σ n
    let (cs, σ) ← simplifyChildren (fun σ c => simplify fuel σ (some n.type) c) σ n.children
    simplifyNode ys σ parent { n with children := cs }

/-- The call tree of the walk: `Reaches ys a b` when the call `simplify` makes with the
arguments `a = (fuel, scope, parent, node)` makes, directly or not, the call with `b`.  The
`i`-th child is called with the scope the children before it leave. -/
inductive Reaches : Nat × Scope × Option AstNodeType × AstNode →
    Nat × Scope × Option AstNodeType × AstNode → Prop
  | refl (a) : Reaches a a
  | child {fuel σ parent n n₁ i c done σi b} :
      expandFirstDot σ n = some n₁ → n₁.children[i]? = some c →
      simplifyChildren (fun σ c => simplify ys fuel σ (some n₁.type) c) σ (n₁.children.take i) =
        some (done, σi) →
      Reaches (fuel, σi, some n₁.type, c) b → Reaches (fuel + 1, σ, parent, n) b

/-! ## 3. Inverting a step -/

theorem simplifyChildren_cons_eq_some {f : Scope → AstNode → Option (AstNode × Scope)}
    {σ σ' : Scope} {c : AstNode} {cs r : List AstNode} :
    simplifyChildren f σ (c :: cs) = some (r, σ') ↔
      ∃ c' σ₁ cs', f σ c = some (c', σ₁) ∧ simplifyChildren f σ₁ cs = some (cs', σ') ∧
        r = c' :: cs' := by
  simp only [simplifyChildren, Option.bind_eq_bind, Option.bind_eq_some, Option.some.injEq,
    Prod.mk.injEq, Prod.exists]
  constructor
  · rintro ⟨c', σ₁, h₁, cs', σ₂, h₂, rfl, rfl⟩
    exact ⟨c', σ₁, cs', h₁, h₂, rfl⟩
  · rintro ⟨c', σ₁, cs', h₁, h₂, rfl⟩
    exact ⟨c', σ₁, h₁, cs', σ', h₂, rfl, rfl⟩

/-- One call of the walk: the `AST_DOT` step, the children, the node. -/
theorem simplify_succ_eq_some {fuel : Nat} {σ σ' : Scope} {parent : Option AstNodeType}
    {n n' : AstNode} :
    simplify ys (fuel + 1) σ parent n = some (n', σ') ↔
      ∃ n₁ cs σ₁, expandFirstDot σ n = some n₁ ∧
        simplifyChildren (fun σ c => simplify ys fuel σ (some n₁.type) c) σ n₁.children =
          some (cs, σ₁) ∧
        simplifyNode ys σ₁ parent { n₁ with children := cs } = some (n', σ') := by
  simp only [simplify, Option.bind_eq_bind, Option.bind_eq_some, Prod.exists]
  constructor
  · rintro ⟨n₁, h₁, cs, σ₁, h₂, h₃⟩
    exact ⟨n₁, cs, σ₁, h₁, h₂, h₃⟩
  · rintro ⟨n₁, cs, σ₁, h₁, h₂, h₃⟩
    exact ⟨n₁, h₁, cs, σ₁, h₂, h₃⟩

/-! ## 4. Which names a walk can register -/

/-- The node types whose case in `simplify` writes `current_scope`. -/
def registersType (t : AstNodeType) : Bool :=
  t = .typedef || t = .enum || t = .wire || t = .parameter || t = .localparam || t = .struct

/-- The `switch` at `n` may map `x`: `n` is a declaration or a struct called `x`, or a struct
whose members Yosys registers as `x` (`name.member`). -/
def registersName (x : String) (n : AstNode) : Bool :=
  registersType n.type &&
    (n.str == x || (n.type == .struct && (n.str ++ ".").data.isPrefixOf x.data))

/-- `simplify` may map `x` when it reaches `n`: its `switch` may, or `n` has an `AST_DOT`
child, whose expansion may rename it. -/
def mayRegister (x : String) (n : AstNode) : Bool :=
  registersName x n || (registersType n.type && n.children.any (·.type == .dot))

mutual

/-- No node of the tree may map `x`. -/
def declFree (x : String) : AstNode → Bool
  | n@{ children := cs, .. } => !mayRegister x n && declFreeList x cs

/-- No node of the trees may map `x`. -/
def declFreeList (x : String) : List AstNode → Bool
  | [] => true
  | c :: cs => declFree x c && declFreeList x cs

end

variable {x : String}

theorem declFree_eq (n : AstNode) :
    declFree x n = (!mayRegister x n && declFreeList x n.children) := by
  cases n; rw [declFree]

theorem declFreeList_iff : ∀ {cs : List AstNode},
    declFreeList x cs = true ↔ ∀ c ∈ cs, declFree x c = true
  | [] => by simp [declFreeList]
  | c :: cs => by simp [declFreeList, declFreeList_iff]

@[simp] theorem declFree_node2 {t : AstNodeType} (ht : registersType t = false) (a b : AstNode) :
    declFree x (node2 t a b) = (declFree x a && declFree x b) := by
  simp [declFree_eq, mayRegister, registersName, node2, AstNode.new, ht, declFreeList]

@[simp] theorem declFree_mkconstInt (v : Int) : declFree x (mkconstInt v) = true := by
  simp [declFree_eq, mayRegister, registersName, mkconstInt, AstNode.new, registersType,
    declFreeList]

theorem declFree_of_mem {c : AstNode} {cs : List AstNode} (h : declFreeList x cs = true)
    (hc : c ∈ cs) : declFree x c = true :=
  declFreeList_iff.1 h c hc

theorem memberBounds_declFree {elem l r : AstNode} (h : memberBounds elem = some (l, r)) :
    declFree x l = true ∧ declFree x r = true := by
  unfold memberBounds at h
  split_ifs at h
  · cases h; simp
  · split at h <;> cases h; simp

theorem applyRange_declFree {elem sr l r size l' r' : AstNode}
    (h : applyRange elem sr l r size = some (l', r')) (hl : declFree x l = true)
    (hr : declFree x r = true) (hs : declFree x size = true)
    (hsr : declFreeList x sr.children = true) : declFree x l' = true ∧ declFree x r' = true := by
  unfold applyRange at h
  split_ifs at h <;> split at h <;> (try split_ifs at h) <;>
    simp only [Option.some.injEq, Prod.mk.injEq, reduceCtorEq] at h <;>
    (try obtain ⟨rfl, rfl⟩ := h) <;> simp_all [declFreeList, registersType]

mutual

/-- What `expand_dot` builds holds only constants, arithmetic and copies of the selectors'
children, so it declares nothing the chain does not. -/
theorem expandDot_declFree : ∀ (s search : AstNode) {l r : AstNode},
    expandDot s search = some (l, r) → declFree x search = true →
      declFree x l = true ∧ declFree x r = true
  | s, search@{ children := cs, .. }, l, r, h, hf => by
    rw [expandDot_eq] at h
    simp only [Option.bind_eq_bind, Option.bind_eq_some, Prod.exists] at h
    obtain ⟨elem, -, left, right, hb, sd, sr, hsc, h⟩ := h
    have hcs : declFreeList x cs = true := by rw [declFree_eq] at hf; simp_all
    obtain ⟨hsd, hsr⟩ := scanChildren_declFree elem cs hsc hcs
    obtain ⟨hl₀, hr₀⟩ := memberBounds_declFree hb
    have hget : declFree x (sd.getD (left, right)).1 = true ∧
        declFree x (sd.getD (left, right)).2 = true := by
      cases sd with
      | none => exact ⟨hl₀, hr₀⟩
      | some e => exact hsd e rfl
    cases sr with
    | none =>
      simp only [Option.some.injEq, Prod.mk.injEq] at h
      obtain ⟨rfl, rfl⟩ := h
      exact hget
    | some sr =>
      exact applyRange_declFree h hget.1 hget.2
        (by simp [elemSize, registersType, hl₀, hr₀]) (hsr sr rfl)
termination_by structural _ search => search

/-- The same for the loop over the children of an `AST_DOT`. -/
theorem scanChildren_declFree : ∀ (elem : AstNode) (cs : List AstNode) {sd sr},
    scanChildren elem cs = some (sd, sr) → declFreeList x cs = true →
      (∀ e ∈ sd, declFree x e.1 = true ∧ declFree x e.2 = true) ∧
        ∀ r ∈ sr, declFreeList x r.children = true
  | _, [], _, _, h, _ => by
    simp only [scanChildren, Option.some.injEq, Prod.mk.injEq] at h
    simp [← h.1, ← h.2]
  | elem, c :: cs, sd, sr, h, hf => by
    simp only [declFreeList, Bool.and_eq_true] at hf
    rw [scanChildren_cons] at h
    split_ifs at h with hd hr
    · simp only [Option.bind_eq_bind, Option.bind_eq_some, Prod.exists] at h
      obtain ⟨sd₀, sr₀, h₀, h⟩ := h
      split_ifs at h
      obtain ⟨e, he, h⟩ := Option.bind_eq_some.1 h
      simp only [Option.some.injEq, Prod.mk.injEq] at h
      obtain ⟨rfl, rfl⟩ := h
      exact ⟨fun e' he' => by cases he'; exact expandDot_declFree elem c he hf.1,
        (scanChildren_declFree elem cs h₀ hf.2).2⟩
    · simp only [Option.bind_eq_bind, Option.bind_eq_some, Prod.exists] at h
      obtain ⟨sd₀, sr₀, h₀, h⟩ := h
      split_ifs at h
      simp only [Option.some.injEq, Prod.mk.injEq] at h
      obtain ⟨rfl, rfl⟩ := h
      refine ⟨(scanChildren_declFree elem cs h₀ hf.2).1, fun r hr => ?_⟩
      cases hr
      have := hf.1
      rw [declFree_eq] at this
      simp_all
    · exact scanChildren_declFree elem cs h hf.2
termination_by structural _ cs => cs

end

theorem convertDot_declFree {w n dot e : AstNode} (h : convertDot w n dot = some e)
    (hdot : declFree x dot = true) (hn : declFreeList x n.children = true) :
    declFree x e = true := by
  simp only [convertDot, Option.bind_eq_bind, Option.bind_eq_some, Prod.exists] at h
  obtain ⟨sn, -, l, r, he, h⟩ := h
  obtain ⟨hl, hr⟩ := expandDot_declFree sn dot he hdot
  split at h
  · next c cs hcs =>
    have hc : declFreeList x c.children = true := by
      have := declFree_of_mem hn (hcs ▸ List.mem_cons_self c cs)
      rw [declFree_eq] at this
      simp_all
    split_ifs at h
    · simp only [Option.bind_eq_bind, Option.bind_eq_some] at h
      obtain ⟨_, _, _, _, idx, hidx, h⟩ := h
      have hi : declFree x idx = true :=
        declFree_of_mem hc (List.mem_of_mem_head? hidx)
      simp only [pure, Option.some.injEq] at h
      subst h
      simp [registersType, hl, hr, hi]
    · simp only [pure, Option.some.injEq] at h
      subst h
      simp [registersType, hl, hr]
  · cases h

/-- The `AST_DOT` step keeps a tree free of declarations of `x`: a node with an `AST_DOT`
child declares nothing, and the range it gets is built from its own children. -/
theorem expandFirstDot_declFree {σ : Scope} {n n₁ : AstNode} (h : expandFirstDot σ n = some n₁)
    (hn : declFree x n = true) : declFree x n₁ = true := by
  unfold expandFirstDot at h
  split at h
  · cases h; exact hn
  · next dot hdot =>
    have hmem := List.mem_of_find?_eq_some hdot
    have htd : dot.type = .dot := by simpa using List.find?_some hdot
    rw [declFree_eq] at hn
    simp only [Bool.and_eq_true, Bool.not_eq_true'] at hn
    have hreg : registersType n.type = false := by
      have : n.children.any (·.type == .dot) = true := List.any_eq_true.2 ⟨dot, hmem, by simp [htd]⟩
      exact (by simpa [mayRegister, this] using hn.1 : _ ∧ _).2
    split at h
    · cases h
      simp [declFree_eq, mayRegister, registersName, hreg, declFreeList]
    · obtain ⟨e, he, rfl⟩ := Option.map_eq_some'.1 h
      have := convertDot_declFree he (declFree_of_mem hn.2 hmem) hn.2
      rw [declFree_eq]
      simp [mayRegister, registersName, hreg, declFreeList, this]

/-! ## 5. A walk that declares nothing called `x` keeps what `x` means -/

theorem Scope.find_append_of_ne {Δ σ : Scope} (h : ∀ e ∈ Δ, e.1 ≠ x) :
    Scope.find (Δ ++ σ) x = σ.find x := by
  have : Δ.find? (·.1 = x) = none := List.find?_eq_none.2 fun e he => by simpa using h e he
  simp [Scope.find, List.find?_append, this]

/-- The `switch` writes `current_scope` only under the node's own name, and a struct under
its members' `name.member`. -/
theorem simplifyNode_find {σ σ' : Scope} {parent : Option AstNodeType} {n n' : AstNode}
    (h : simplifyNode ys σ parent n = some (n', σ')) (hx : registersName x n = false) :
    σ'.find x = σ.find x := by
  have hstr : registersType n.type = true → n.str ≠ x := fun ht he => by
    simp [registersName, ht, he] at hx
  have hins : ∀ v, registersType n.type = true → (σ.insert n.str v).find x = σ.find x :=
    fun v ht => Scope.find_insert_ne σ v (Ne.symm (hstr ht))
  unfold simplifyNode at h
  split at h <;> (try simp only [Option.some.injEq, Prod.mk.injEq] at h) <;>
    (try obtain ⟨rfl, rfl⟩ := h)
  case h_1 | h_2 => exact hins _ (by simp [registersType, *])
  case h_3 | h_4 | h_5 =>
    obtain ⟨_, -, he⟩ := Option.map_eq_some'.1 h
    simp only [Prod.mk.injEq] at he
    rw [← he.2]
    exact hins _ (by simp [registersType, *])
  case h_6 =>
    obtain ⟨_, -, he⟩ := Option.map_eq_some'.1 h
    simp only [Prod.mk.injEq] at he
    rw [← he.2]
  case h_7 hty =>
    have hne : n.str ≠ x := hstr (by simp [registersType, hty])
    have hpre : ¬(n.str ++ ".").data <+: x.data := fun hp => by
      rw [← List.isPrefixOf_iff_prefix] at hp
      simp only [registersName, hty, registersType, hp] at hx
      simp at hx
    unfold simplifyStruct at h
    split_ifs at h
    · have hs := ys.struct_str σ n
      have ha := ys.struct_adds σ n
      rcases hp : ys.struct σ n with ⟨n₂, Δ⟩
      rw [hp] at h hs ha
      have hΔ : (Δ ++ σ).find x = σ.find x := Scope.find_append_of_ne fun e he hex => by
        rcases ha e he with h' | h'
        · exact hne (h'.symm.trans hex)
        · exact hpre (hex ▸ h')
      simp only at h hs
      split at h
      · cases h
      · simp only [Option.some.injEq, Prod.mk.injEq] at h
        obtain ⟨rfl, rfl⟩ := h
        rw [Scope.find_insert_ne _ _ (fun h' => hne (h' ▸ hs).symm), hΔ]
    · simp only [Option.some.injEq, Prod.mk.injEq] at h
      rw [← h.2]
  case h_8 => rfl

/-- The loop over the children keeps `x` when each call does. -/
theorem simplifyChildren_find {f : Scope → AstNode → Option (AstNode × Scope)}
    (hf : ∀ {σ σ' c c'}, f σ c = some (c', σ') → declFree x c = true → σ'.find x = σ.find x) :
    ∀ {σ σ' : Scope} {cs cs' : List AstNode}, simplifyChildren f σ cs = some (cs', σ') →
      declFreeList x cs = true → σ'.find x = σ.find x
  | _, _, [], _, h, _ => by
    simp only [simplifyChildren, Option.some.injEq, Prod.mk.injEq] at h
    rw [h.2]
  | _, _, _ :: _, _, h, hcs => by
    obtain ⟨_, _, _, h₁, h₂, -⟩ := simplifyChildren_cons_eq_some.1 h
    simp only [declFreeList, Bool.and_eq_true] at hcs
    rw [simplifyChildren_find hf h₂ hcs.2, hf h₁ hcs.1]

/-- **The walk keeps what `x` means**, on a tree with no declaration of `x`. -/
theorem simplify_find : ∀ {fuel : Nat} {σ σ' : Scope} {parent : Option AstNodeType}
    {n n' : AstNode}, simplify ys fuel σ parent n = some (n', σ') → declFree x n = true →
      σ'.find x = σ.find x
  | 0, _, _, _, _, _, h, _ => by simp [simplify] at h
  | _ + 1, _, _, _, _, _, h, hn => by
    obtain ⟨n₁, cs, σ₁, h₁, h₂, h₃⟩ := (simplify_succ_eq_some ys).1 h
    have hn₁ := expandFirstDot_declFree h₁ hn
    rw [declFree_eq] at hn₁
    simp only [Bool.and_eq_true, Bool.not_eq_true'] at hn₁
    have hx : registersName x { n₁ with children := cs } = false :=
      (by simpa [mayRegister] using hn₁.1 : registersName x n₁ = false ∧ _).1
    rw [simplifyNode_find ys h₃ hx, simplifyChildren_find (simplify_find) h₂ hn₁.2]

/-- Along the call tree, from a tree with no declaration of `x`, every call sees `x` as
the first did. -/
theorem reaches_find {a b : Nat × Scope × Option AstNodeType × AstNode}
    (h : Reaches ys a b) (ha : declFree x a.2.2.2 = true) :
    b.2.1.find x = a.2.1.find x ∧ declFree x b.2.2.2 = true := by
  induction h with
  | refl => exact ⟨rfl, ha⟩
  | child h₁ hc h₂ _ ih =>
    have hn₁ := expandFirstDot_declFree h₁ ha
    rw [declFree_eq] at hn₁
    simp only [Bool.and_eq_true] at hn₁
    have hmem := List.getElem?_mem hc
    obtain ⟨hf, hd⟩ := ih (declFree_of_mem hn₁.2 hmem)
    refine ⟨hf.trans (simplifyChildren_find (simplify_find ys) h₂ ?_), hd⟩
    exact declFreeList_iff.2 fun c' hc' => declFree_of_mem hn₁.2 (List.mem_of_mem_take hc')

/-! ## 6. An access the walk reaches after its declaration -/

/-- A declaration as `convert_packed_unpacked_range` leaves it when it flattens: a wire or
parameter carrying the table of the bounds `ps` (packed ranges, then unpacked ones, each
least significant first), with one range per dimension in `packed_ranges` and
`unpacked_ranges`. -/
structure FlatDecl (D : AstNode) (ps : List (Int × Int)) : Prop where
  type : D.type = .wire ∨ D.type = .parameter ∨ D.type = .localparam
  dims : D.multirangeDimensions = dimsOf ps
  swapped : D.multirangeSwapped = swappedOf ps
  count : (unpackedOf D).length + (packedOf D).length = ps.length

theorem node2_inj {t : AstNodeType} {a b a' b' : AstNode} (h : node2 t a b = node2 t a' b') :
    a = a' ∧ b = b' := by
  have := congrArg AstNode.children h
  simpa [node2] using this

/-- The `AST_IDENTIFIER` case on an access to a declaration flattened to a zero-based table
of two or more dimensions: it returns one range, marked `basic_prep`, that is SystemVerilog's
interval of the access. -/
theorem simplifyIdentifier_flat {σ : Scope} {n D : AstNode} {ps : List (Int × Int)}
    (hD : σ.find n.str = some D) (hflat : FlatDecl D ps) (hz : ZeroBased ps)
    (hk : 2 ≤ ps.length) (hsel : n.children ≠ []) (hlen : n.children.length ≤ ps.length)
    (hch : ∀ s ∈ n.children, s.children ≠ []) (hprep : n.basicPrep = false) :
    ∃ L R, simplifyIdentifier σ n =
        some { n with children := [node2 .range L R], basicPrep := true } ∧
      ∀ ρ xs a b, accessValues ρ n.children = some (xs, a, b) → InBounds ps 0 xs a b →
        eval ρ L = (svFrom ps 0 xs a b).1 ∧ eval ρ R = (svFrom ps 0 xs a b).2 := by
  have hrw : rewritesAccess D = true := by
    have hc := hflat.count
    have hty : (D.type = .wire || D.type = .parameter || D.type = .localparam) = true := by
      rcases hflat.type with ht | ht | ht <;> simp [ht]
    have hp : ((packedOf D).isEmpty && (unpackedOf D).isEmpty) = false := by
      cases hp : packedOf D <;> cases hu : unpackedOf D <;> simp_all; omega
    simp only [rewritesAccess, hty, hp, Bool.not_false, Bool.true_and, bne_iff_ne, ne_eq]
    omega
  have hne : (n.children.isEmpty || n.basicPrep) = false := by simpa [hprep] using hsel
  obtain ⟨L, R, hr⟩ := convertRange_exists hflat.dims hflat.swapped hflat.count hsel hlen hch
  refine ⟨L, R, by simp [simplifyIdentifier, hne, hD, hrw, hr], fun ρ xs a b hv hb => ?_⟩
  obtain ⟨L', R', hr', hL, hR⟩ :=
    convertRange_zeroBased ρ hz hflat.dims hflat.swapped hflat.count hv hb
  obtain ⟨rfl, rfl⟩ := node2_inj (Option.some.inj (hr.symm.trans hr'))
  exact ⟨hL, hR⟩

theorem simplifyNode_identifier {σ : Scope} {parent : Option AstNodeType} {n : AstNode}
    (h : n.type = .identifier) :
    simplifyNode ys σ parent n = (simplifyIdentifier σ n).map fun n' => (n', σ) := by
  simp [simplifyNode, h]

theorem expandFirstDot_of_no_dot {σ : Scope} {n : AstNode}
    (h : ∀ c ∈ n.children, c.type ≠ .dot) : expandFirstDot σ n = some n := by
  have : n.children.find? (·.type = .dot) = none := List.find?_eq_none.2 (by simpa using h)
  simp [expandFirstDot, this]

/-- The scope an identifier's selectors leave, on a walk that started while the scope mapped
the identifier's name to `D` and from a tree with no declaration of that name, still maps it
to `D`. -/
theorem find_after_selectors {fuel fuel' : Nat} {σ σv σ₁ : Scope}
    {parent parent' : Option AstNodeType} {T idn D : AstNode} {cs : List AstNode}
    (hσ : σ.find D.str = some D) (hfree : declFree D.str T = true)
    (hreach : Reaches ys (fuel, σ, parent, T) (fuel' + 1, σv, parent', idn))
    (hname : idn.str = D.str)
    (hsels : simplifyChildren (fun σ c => simplify ys fuel' σ (some .identifier) c) σv
      idn.children = some (cs, σ₁)) :
    σ₁.find idn.str = some D := by
  obtain ⟨hfind, hfree'⟩ := reaches_find ys hreach hfree
  have hdecl : declFreeList D.str idn.children = true := by
    rw [declFree_eq, Bool.and_eq_true] at hfree'
    exact hfree'.2
  rw [hname, simplifyChildren_find (simplify_find ys) hsels hdecl]
  exact hfind.trans hσ

/-- **An access after its declaration.**  Run `simplify` on a tree that declares nothing
called `x`, starting while `current_scope` maps `x` to a declaration flattened to a
zero-based table of two or more dimensions.  Every identifier `x` with no `AST_DOT` that the
walk reaches with fuel left, once its selectors are simplified to at most as many as the
table has dimensions, comes back as one range marked `basic_prep`, and the range evaluates
to SystemVerilog's interval of the access those selectors make. -/
theorem simplify_access_after_declaration {fuel fuel' : Nat} {σ σv σ₁ : Scope}
    {parent parent' : Option AstNodeType} {T idn D : AstNode} {ps : List (Int × Int)}
    {cs : List AstNode} (hflat : FlatDecl D ps) (hz : ZeroBased ps) (hk : 2 ≤ ps.length)
    (hσ : σ.find D.str = some D) (hfree : declFree D.str T = true)
    (hreach : Reaches ys (fuel, σ, parent, T) (fuel' + 1, σv, parent', idn))
    (hid : idn.type = .identifier) (hname : idn.str = D.str)
    (hdot : ∀ c ∈ idn.children, c.type ≠ .dot) (hprep : idn.basicPrep = false)
    (hsels : simplifyChildren (fun σ c => simplify ys fuel' σ (some .identifier) c) σv
      idn.children = some (cs, σ₁))
    (hcs : cs ≠ [] ∧ cs.length ≤ ps.length ∧ ∀ s ∈ cs, s.children ≠ []) :
    ∃ L R, simplify ys (fuel' + 1) σv parent' idn =
        some ({ idn with children := [node2 .range L R], basicPrep := true }, σ₁) ∧
      ∀ ρ xs a b, accessValues ρ cs = some (xs, a, b) → InBounds ps 0 xs a b →
        eval ρ L = (svFrom ps 0 xs a b).1 ∧ eval ρ R = (svFrom ps 0 xs a b).2 := by
  have hσ₁ := find_after_selectors ys hσ hfree hreach hname hsels
  obtain ⟨L, R, hL, hev⟩ := simplifyIdentifier_flat (n := { idn with children := cs }) hσ₁ hflat
    hz hk hcs.1 hcs.2.1 hcs.2.2 hprep
  refine ⟨L, R, (simplify_succ_eq_some ys).2
    ⟨idn, cs, σ₁, expandFirstDot_of_no_dot hdot, by rwa [hid], ?_⟩, hev⟩
  rw [simplifyNode_identifier ys (n := { idn with children := cs }) hid, hL]
  rfl

/-- A Yosys that leaves a declaration as it is and registers a named struct under its own
name; the examples below reach neither. -/
def Yosys.idle : Yosys where
  wire _ n := n
  struct _ n := (n, [(n.str, n)])
  struct_str _ _ := rfl
  struct_adds _ n e he := Or.inl (by rw [List.mem_singleton.1 he])

/-- `logic [1:0][1:0] x` flattened: the table `[0, 2, 0, 2]` and the range `[3:0]`. -/
def xFlat : AstNode :=
  { AstNode.new .wire with
    str := "\\x"
    packedRanges := some [makeRange 1 0, makeRange 1 0]
    unpackedRanges := some []
    multirangeDimensions := [0, 2, 0, 2]
    multirangeSwapped := [false, false]
    children := [makeRange 3 0] }

/-- The access `x[1][0]`. -/
def xOneZero : AstNode :=
  { AstNode.new .identifier with str := "\\x", children := [bitSelect 1, bitSelect 0] }

/-- `module top; assign y = x[1][0]; endmodule`, walked while `x` is the flattened
declaration of a package imported before it. -/
def useAfterNet : AstNode :=
  { AstNode.new .module with
    str := "\\top"
    children := [{ AstNode.new .assign with
      children := [{ AstNode.new .identifier with str := "\\y" }, xOneZero] }] }

/-- The walk of `useAfterNet` reaches `x[1][0]` on the right of the assignment, and the
identifier step there returns one range, SystemVerilog's. -/
theorem simplify_access_after_declaration_useAfterNet :
    ∃ L R, simplify Yosys.idle 3 [("\\x", xFlat)] (some .assign) xOneZero =
        some ({ xOneZero with children := [node2 .range L R], basicPrep := true },
          [("\\x", xFlat)]) ∧
      ∀ ρ xs a b, accessValues ρ xOneZero.children = some (xs, a, b) →
        InBounds [(1, 0), (1, 0)] 0 xs a b →
        eval ρ L = (svFrom [(1, 0), (1, 0)] 0 xs a b).1 ∧
          eval ρ R = (svFrom [(1, 0), (1, 0)] 0 xs a b).2 :=
  @simplify_access_after_declaration Yosys.idle 5 2 [("\\x", xFlat)] [("\\x", xFlat)]
    [("\\x", xFlat)] none (some .assign) useAfterNet xOneZero xFlat [(1, 0), (1, 0)]
    xOneZero.children ⟨Or.inl rfl, rfl, rfl, rfl⟩ (by simp [ZeroBased]) (by decide) rfl
    (by decide)
    (Reaches.child (i := 0) rfl rfl rfl (Reaches.child (i := 1) rfl rfl rfl (Reaches.refl _)))
    rfl rfl (by decide) rfl rfl ⟨List.cons_ne_nil _ _, by decide, by simp [xOneZero, bitSelect]⟩

/-- The test of `AST_IDENTIFIER` fails on a declaration with exactly one range. -/
theorem rewritesAccess_one_range {D : AstNode} {p : Int × Int} (hflat : FlatDecl D [p]) :
    rewritesAccess D = false := by
  have hc := hflat.count
  simp only [rewritesAccess, Bool.and_eq_false_iff, bne_eq_false_iff_eq]
  exact Or.inr (by simpa [Nat.add_comm] using hc)

/-- **An access to a one-range declaration** is left to Yosys: the identifier step fails its
test, so the identifier comes back with its simplified selectors and without `basic_prep`.
On a descending `[l:0]` nothing needs to move: SystemVerilog's interval of the access is the
pair of bounds the selector already holds. -/
theorem simplify_access_one_range {fuel fuel' : Nat} {σ σv σ₁ : Scope}
    {parent parent' : Option AstNodeType} {T idn D : AstNode} {l : Int} {cs : List AstNode}
    (hflat : FlatDecl D [(l, 0)]) (hl : 0 ≤ l)
    (hσ : σ.find D.str = some D) (hfree : declFree D.str T = true)
    (hreach : Reaches ys (fuel, σ, parent, T) (fuel' + 1, σv, parent', idn))
    (hid : idn.type = .identifier) (hname : idn.str = D.str)
    (hdot : ∀ c ∈ idn.children, c.type ≠ .dot)
    (hsels : simplifyChildren (fun σ c => simplify ys fuel' σ (some .identifier) c) σv
      idn.children = some (cs, σ₁)) :
    simplify ys (fuel' + 1) σv parent' idn = some ({ idn with children := cs }, σ₁) ∧
      ∀ ρ a b, accessValues ρ cs = some ([], a, b) → InBounds [(l, 0)] 0 [] a b →
        svFrom [(l, 0)] 0 [] a b = (a, b) := by
  have hσ₁ := find_after_selectors ys hσ hfree hreach hname hsels
  refine ⟨(simplify_succ_eq_some ys).2
    ⟨idn, cs, σ₁, expandFirstDot_of_no_dot hdot, by rwa [hid], ?_⟩, fun ρ a b _ hb => ?_⟩
  · rw [simplifyNode_identifier ys (n := { idn with children := cs }) hid]
    simp [simplifyIdentifier, hσ₁, rewritesAccess_one_range hflat]
  · exact svFrom_single_descending hl hb

/-- `logic [3:0] y` after `convert_packed_unpacked_range`: one range, one entry pair. -/
def yFlat : AstNode :=
  { AstNode.new .wire with
    str := "\\y"
    packedRanges := some [makeRange 3 0]
    unpackedRanges := some []
    multirangeDimensions := [0, 4]
    multirangeSwapped := [false]
    children := [makeRange 3 0] }

/-- The access `y[2:1]`. -/
def yTwoOne : AstNode := { AstNode.new .identifier with str := "\\y", children := [makeRange 2 1] }

/-- `module top; assign z = y[2:1]; endmodule`, walked while `y` is `yFlat`. -/
def useOneRange : AstNode :=
  { AstNode.new .module with
    str := "\\top"
    children := [{ AstNode.new .assign with
      children := [{ AstNode.new .identifier with str := "\\z" }, yTwoOne] }] }

/-- The walk of `useOneRange` leaves `y[2:1]` as it is, and `[2:1]` is SystemVerilog's
interval of it. -/
theorem simplify_access_one_range_useOneRange :
    simplify Yosys.idle 3 [("\\y", yFlat)] (some .assign) yTwoOne =
        some ({ yTwoOne with children := yTwoOne.children }, [("\\y", yFlat)]) ∧
      ∀ ρ a b, accessValues ρ yTwoOne.children = some ([], a, b) →
        InBounds [(3, 0)] 0 [] a b → svFrom [(3, 0)] 0 [] a b = (a, b) :=
  @simplify_access_one_range Yosys.idle 5 2 [("\\y", yFlat)] [("\\y", yFlat)] [("\\y", yFlat)]
    none (some .assign) useOneRange yTwoOne yFlat 3 yTwoOne.children ⟨Or.inl rfl, rfl, rfl, rfl⟩
    (by decide) rfl (by decide)
    (Reaches.child (i := 0) rfl rfl rfl (Reaches.child (i := 1) rfl rfl rfl (Reaches.refl _)))
    rfl rfl (by decide) rfl

/-- `module top; sub u(.a(x[1][0])); logic [1:0][1:0] x; endmodule` as `process_module`
orders it: the cell before the nets. -/
def cellBeforeNet : AstNode :=
  { AstNode.new .module with
    str := "\\top"
    children := [
      { AstNode.new .cell with
        str := "\\u"
        children := [{ AstNode.new .argument with str := "\\a", children := [xOneZero] }] },
      { AstNode.new .wire with
        str := "\\x"
        packedRanges := some [makeRange 1 0, makeRange 1 0]
        unpackedRanges := some [] }] }

/-- The walk meets `x[1][0]` in the cell before `x` is declared: `x` is flattened to
`[3:0]` with the table `[0, 2, 0, 2]`, and the access keeps its two selectors. -/
theorem simplify_access_before_declaration :
    ∃ U' σ' X, simplify Yosys.idle 8 [] none cellBeforeNet = some (U', σ') ∧
      σ'.find "\\x" = some X ∧ X.multirangeDimensions = [0, 2, 0, 2] ∧
      (U'.children.head?.bind (·.children.head?)).bind (·.children.head?) = some xOneZero :=
  ⟨_, _, _, rfl, rfl, rfl, rfl⟩

end UhdmPlugin
