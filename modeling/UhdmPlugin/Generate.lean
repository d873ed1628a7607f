/-
# The descendant walk and generate-scope arrays: `visitEachDescendant`,
# `simplify_parameter`, `process_gen_scope_array`

`visitEachDescendant(node, f)` calls `f` on each child of `node` and then walks below that
child, so a callback that changes a child is followed into what it made of it.  Around the
children it keeps two fields of `shared`: `current_top_node`, set to each module or package
it enters, and `multirange_scope`, which gets the name of each named block, generate block,
function or typedef it enters.  Because the callback may add children, the walk need not
end; the model bounds its depth with `fuel`.

Two callers use it.  `simplify_parameter` writes every typedef, parameter and localparam of
`current_top_node`, then of the module, into `current_scope`.  `process_gen_scope_array`
rewrites, for each parameter `P` of a generate scope, every name below the scope that holds
`[P]` into an `AST_PREFIX`: the name up to its first `[`, the identifier `P`, and the member
name after the last `].` -- how Yosys writes `blk[P].member`.

* `visitEachDescendant_shared`: every walk that ends leaves `current_top_node` and
  `multirange_scope` as it found them.
* `visitEachDescendant_readOnly`, `simplifyParameterWalks_eq`: a callback that changes no
  node sees the descendants in the order `descendants` lists them, with any fuel above the
  height; so the walks of `simplify_parameter` build the scope of `simplifyParameterScope`.
* `processGenScopeArray_eq`: with fuel two levels above the height of each scope plus one
  per child, the walks of `process_gen_scope_array` end and leave `genScopeRewrite` of each
  scope, a structural rewrite (`rewriteBelow`, once per parameter).
* `processGenScopeArray_cleared`: when the parameter names are non-empty and free of `]`, no
  name below a rewritten scope holds `[P]` for a parameter `P` of that scope.
* `prefixParam_member`: the name `head[P].member` becomes the prefix of `head` with the
  identifiers `P` and `\member`, the pieces that spell it.
-/
import UhdmPlugin.Design

namespace UhdmPlugin

open AstNode

/-! ## 1. The walk -/

/-- The two fields of `shared` that `visitEachDescendant` sets and restores. -/
structure WalkShared where
  /-- `shared.current_top_node`. -/
  top : Option AstNode
  /-- `shared.multirange_scope`, innermost name last. -/
  scope : List String

/-- A named `AST_BLOCK`, `AST_GENBLOCK`, `AST_FUNCTION` or `AST_TYPEDEF`: its name is pushed
on `multirange_scope` while the walk is below it. -/
def opensScope (n : AstNode) : Bool :=
  (n.type = .block ∨ n.type = .genblock ∨ n.type = .function ∨ n.type = .typedef) ∧ n.str ≠ ""

/-- An `AST_MODULE` or `AST_PACKAGE`: it becomes `current_top_node` while the walk is below
it. -/
def isTopNode (n : AstNode) : Bool := n.type = .module ∨ n.type = .package

namespace WalkShared

/-- Entering `n`. -/
def enter (sh : WalkShared) (n : AstNode) : WalkShared where
  top := if isTopNode n then some n else sh.top
  scope := if opensScope n then sh.scope ++ [n.str] else sh.scope

/-- Leaving `n`: `current_top_node` goes back to the node saved on entry, and the name
pushed on entry is popped. -/
def leave (sh : WalkShared) (last : Option AstNode) (n : AstNode) : WalkShared where
  top := last
  scope := if opensScope n then sh.scope.dropLast else sh.scope

@[simp] theorem leave_enter (sh : WalkShared) (n : AstNode) : (sh.enter n).leave sh.top n = sh := by
  cases sh
  simp only [enter, leave, mk.injEq, true_and]
  split <;> simp

end WalkShared

variable {σ : Type}

/-- One turn of the loop of `visitEachDescendant`: the callback on the child, then the walk
below what the callback made of it. -/
def walkChild (f : σ → AstNode → AstNode × σ)
    (visit : WalkShared × σ → AstNode → Option (AstNode × (WalkShared × σ)))
    (acc : List AstNode × (WalkShared × σ)) (c : AstNode) :
    Option (List AstNode × (WalkShared × σ)) :=
  (visit (acc.2.1, (f acc.2.2 c).2) (f acc.2.2 c).1).map fun v => (acc.1 ++ [v.1], v.2)

/-- `visitEachDescendant(node, f)` (the `BUILD_UPSTREAM` one), with the callback's own state
`σ`.  `fuel` bounds the depth; `none` when it runs out. -/
def visitEachDescendant (f : σ → AstNode → AstNode × σ) :
    Nat → WalkShared × σ → AstNode → Option (AstNode × (WalkShared × σ))
  | 0, _, _ => none
  | fuel + 1, st, node =>
    (node.children.foldlM (walkChild f (visitEachDescendant f fuel))
        ([], (st.1.enter node, st.2))).map
      fun r => ({ node with children := r.1 }, (r.2.1.leave st.1.top node, r.2.2))

/-- An invariant of every step of a fold in `Option` holds at its end. -/
theorem foldlM_option_inv {α β : Type} {step : α → β → Option α} (P : α → Prop)
    (h : ∀ a b a', P a → step a b = some a' → P a') :
    ∀ {l : List β} {a a' : α}, P a → l.foldlM step a = some a' → P a'
  | [], _, _, ha, hl => by cases hl; exact ha
  | b :: l, a, a', ha, hl => by
    rw [List.foldlM_cons, Option.bind_eq_bind, Option.bind_eq_some] at hl
    obtain ⟨a₁, h₁, h₂⟩ := hl
    exact foldlM_option_inv P h (h a b a₁ ha h₁) h₂

/-- **The walk restores `shared`.**  Whatever the tree and the callback, a walk that ends
leaves `current_top_node` and `multirange_scope` as it found them. -/
theorem visitEachDescendant_shared (f : σ → AstNode → AstNode × σ) :
    ∀ {fuel : Nat} {st : WalkShared × σ} {node : AstNode} {r : AstNode × (WalkShared × σ)},
      visitEachDescendant f fuel st node = some r → r.2.1 = st.1
  | 0, _, _, _, h => by cases h
  | fuel + 1, (sh, s), node, r, h => by
    obtain ⟨⟨cs, sh', s'⟩, hfold, rfl⟩ := Option.map_eq_some'.1 h
    have hsh : sh' = sh.enter node := by
      refine foldlM_option_inv (fun a => a.2.1 = sh.enter node) (fun a c a' ha hs => ?_) rfl hfold
      obtain ⟨v, hv, rfl⟩ := Option.map_eq_some'.1 hs
      exact (visitEachDescendant_shared f hv).trans ha
    simp [hsh]

/-- A module `\top` holding the named block `\b`. -/
def topWithBlock : AstNode :=
  { new .module with str := "\\top", children := [{ new .block with str := "\\b" }] }

theorem visitEachDescendant_shared_topWithBlock :
    visitEachDescendant (fun u n => (n, u)) 3 (⟨none, []⟩, ()) topWithBlock =
        some (topWithBlock, (⟨none, []⟩, ())) ∧
      (topWithBlock, ((⟨none, []⟩ : WalkShared), ())).2.1 = ((⟨none, []⟩ : WalkShared), ()).1 :=
  have h : visitEachDescendant (fun u n => (n, u)) 3 (⟨none, []⟩, ()) topWithBlock =
      some (topWithBlock, (⟨none, []⟩, ())) := rfl
  ⟨h, visitEachDescendant_shared _ h⟩

/-! ## 2. Heights, and the loop over the children

The fuel a walk needs is the height of the tree, and one level more when the callback adds
children.  `foldlM_walkChild_eq` is the loop over the children once each child's turn is
known; every walk below is read off it. -/

/-- The height of a tree: `0` for a leaf. -/
def height : AstNode → Nat
  | ⟨_, _, _, _, _, _, _, _, _, _, _, _, _, _, _, _, _, _, cs⟩ => heightList cs
where
  heightList : List AstNode → Nat
    | [] => 0
    | c :: cs => max (height c + 1) (heightList cs)

theorem height_eq (n : AstNode) : height n = height.heightList n.children := by
  cases n; rfl

theorem heightList_le_iff {k : Nat} : ∀ {cs : List AstNode},
    height.heightList cs ≤ k ↔ ∀ c ∈ cs, height c + 1 ≤ k
  | [] => by simp [height.heightList]
  | c :: cs => by simp [height.heightList, heightList_le_iff]

theorem height_le_iff (n : AstNode) (k : Nat) :
    height n ≤ k ↔ ∀ c ∈ n.children, height c + 1 ≤ k := by
  rw [height_eq, heightList_le_iff]

theorem height_lt_of_mem {n c : AstNode} (h : c ∈ n.children) : height c < height n :=
  (height_le_iff n _).1 le_rfl c h

theorem descendants_eq (n : AstNode) : descendants n = descendants.descendantsList n.children := by
  cases n; rfl

theorem mem_descendantsList {d : AstNode} : ∀ {cs : List AstNode},
    d ∈ descendants.descendantsList cs ↔ ∃ c ∈ cs, d = c ∨ d ∈ descendants c
  | [] => by simp [descendants.descendantsList]
  | c :: cs => by simp [descendants.descendantsList, mem_descendantsList, or_assoc]

theorem mem_descendants {d n : AstNode} :
    d ∈ descendants n ↔ ∃ c ∈ n.children, d = c ∨ d ∈ descendants c := by
  rw [descendants_eq, mem_descendantsList]

theorem with_children_self (n : AstNode) : { n with children := n.children } = n := by
  cases n; rfl

/-- The loop over the children, when each child's turn gives `F c`, leaves `shared` as it
found it and moves the callback's state by `G`. -/
theorem foldlM_walkChild_eq {f : σ → AstNode → AstNode × σ}
    {visit : WalkShared × σ → AstNode → Option (AstNode × (WalkShared × σ))}
    (F : AstNode → AstNode) (G : σ → AstNode → σ) (sh : WalkShared) :
    ∀ (cs pre : List AstNode) (s : σ),
      (∀ c ∈ cs, ∀ s, visit (sh, (f s c).2) (f s c).1 = some (F c, (sh, G s c))) →
      cs.foldlM (walkChild f visit) (pre, (sh, s)) = some (pre ++ cs.map F, (sh, cs.foldl G s))
  | [], pre, s, _ => by simp
  | c :: cs, pre, s, h => by
    rw [List.foldlM_cons]
    simp only [walkChild, h c (.head _) s, Option.map_some', Option.bind_eq_bind, Option.some_bind]
    rw [foldlM_walkChild_eq F G sh cs _ _ fun c' hc' => h c' (.tail _ hc')]
    simp

/-- A walk of a leaf calls nothing and gives the leaf back. -/
theorem visitEachDescendant_leaf (f : σ → AstNode → AstNode × σ) {l : AstNode}
    (hl : l.children = []) (fuel : Nat) (sh : WalkShared) (s : σ) :
    visitEachDescendant f (fuel + 1) (sh, s) l = some (l, (sh, s)) := by
  have hl' : { l with children := [] } = l := by rw [← hl]; exact with_children_self l
  rw [visitEachDescendant, hl]
  simp [hl']

/-! ## 3. A callback that changes no node -/

theorem foldl_descendantsList (g : σ → AstNode → σ) : ∀ (cs : List AstNode) (s : σ),
    (descendants.descendantsList cs).foldl g s =
      cs.foldl (fun s c => (descendants c).foldl g (g s c)) s
  | [], _ => rfl
  | c :: cs, s => by
    simp [descendants.descendantsList, List.foldl_append, foldl_descendantsList g cs]

/-- **A read-only walk visits `descendants`.**  With any fuel above the height of the tree,
a callback that changes no node is called on the descendants in the order `descendants`
lists them, and the tree and `shared` come back as they were. -/
theorem visitEachDescendant_readOnly (g : σ → AstNode → σ) :
    ∀ {fuel : Nat} (node : AstNode) (sh : WalkShared) (s : σ), height node < fuel →
      visitEachDescendant (fun s n => (n, g s n)) fuel (sh, s) node =
        some (node, (sh, (descendants node).foldl g s))
  | 0, _, _, _, h => absurd h (Nat.not_lt_zero _)
  | fuel + 1, node, sh, s, h => by
    rw [visitEachDescendant, foldlM_walkChild_eq id (fun s c => (descendants c).foldl g (g s c))
      _ _ _ _ fun c hc s => visitEachDescendant_readOnly g c _ _ (by
        have := height_lt_of_mem hc; omega), descendants_eq node, foldl_descendantsList]
    simp [with_children_self]

theorem visitEachDescendant_readOnly_topWithBlock :
    height topWithBlock < 2 ∧
      visitEachDescendant (fun (s : List String) n => (n, n.str :: s)) 2 (⟨none, []⟩, [])
          topWithBlock =
        some (topWithBlock, (⟨none, []⟩, (descendants topWithBlock).foldl (fun s n => n.str :: s) [])) :=
  ⟨by decide, visitEachDescendant_readOnly _ _ _ _ (by decide)⟩

/-! ## 4. The walks of `simplify_parameter` -/

/-- The callback of `simplify_parameter`: a typedef, parameter or localparam is written into
`current_scope` under its name. -/
def declareInScope (σ : Scope) (n : AstNode) : Scope :=
  if n.type = .typedef ∨ n.type = .parameter ∨ n.type = .localparam then σ.insert n.str n else σ

/-- `simplify_parameter` after the packages: the walk of `current_top_node`, then, when there
is one, the walk of the module, both with `declareInScope`. -/
def simplifyParameterWalks (fuel : Nat) (sh : WalkShared) (σ : Scope) (top : AstNode)
    (module : Option AstNode) : Option (WalkShared × Scope) :=
  (visitEachDescendant (fun σ n => (n, declareInScope σ n)) fuel (sh, σ) top).bind fun r =>
    match module with
    | some m => (visitEachDescendant (fun σ n => (n, declareInScope σ n)) fuel r.2 m).map (·.2)
    | none => some r.2

theorem foldl_declareInScope (σ : Scope) (l : List AstNode) :
    l.foldl declareInScope σ =
      (l.filterMap fun d =>
        if d.type = .typedef ∨ d.type = .parameter ∨ d.type = .localparam then some (d.str, d)
        else none).reverse ++ σ := by
  induction l generalizing σ with
  | nil => rfl
  | cons d l ih =>
    rw [List.foldl_cons, ih]
    by_cases hd : d.type = .typedef ∨ d.type = .parameter ∨ d.type = .localparam <;>
      simp [declareInScope, hd, Scope.insert]

/-- A read-only walk with `declareInScope` adds `declEntries`, newest first. -/
theorem descendants_foldl_declareInScope (σ : Scope) (m : AstNode) :
    (descendants m).foldl declareInScope σ = (declEntries m).reverse ++ σ :=
  foldl_declareInScope σ _

/-- **The walks of `simplify_parameter` build `simplifyParameterScope`.**  With fuel above the
heights of `current_top_node` and of the module, the two walks write the declarations of
`current_top_node` and then of the module over the scope of the packages, exactly as
`simplifyParameterScope` reads them off `descendants`, and leave `shared` as it was. -/
theorem simplifyParameterWalks_eq {live : Nat → Option AstNode}
    {es : List (String × Option Nat)} {top : AstNode} {module : Option AstNode} {fuel : Nat}
    (sh : WalkShared) (htop : height top < fuel) (hm : ∀ m ∈ module, height m < fuel) :
    (setupCurrentScope live es []).bind (fun σ => simplifyParameterWalks fuel sh σ top module) =
      (simplifyParameterScope live es top module).map (sh, ·) := by
  unfold simplifyParameterScope
  rcases setupCurrentScope live es [] with _ | σ
  · rfl
  simp only [Option.some_bind, Option.map_some', simplifyParameterWalks,
    visitEachDescendant_readOnly _ top sh σ htop, descendants_foldl_declareInScope]
  cases module with
  | none => simp
  | some m =>
    simp [visitEachDescendant_readOnly _ m sh _ (hm m rfl), descendants_foldl_declareInScope]

theorem simplifyParameterWalks_eq_topWithBlock :
    height topWithBlock < 2 ∧ (∀ m ∈ some topWithBlock, height m < 2) ∧
      (setupCurrentScope (fun _ => none) [] []).bind
          (fun σ => simplifyParameterWalks 2 ⟨none, []⟩ σ topWithBlock (some topWithBlock)) =
        (simplifyParameterScope (fun _ => none) [] topWithBlock (some topWithBlock)).map
          (⟨none, []⟩, ·) :=
  ⟨by decide, by decide, simplifyParameterWalks_eq _ (by decide) (by decide)⟩

/-! ## 5. A callback that renames a node and appends leaves

The callback of `process_gen_scope_array` changes the type and name of the node it is given
and appends leaves, which the walk then visits and the callback leaves alone.  The walk then
ends with two levels of fuel above the height, and leaves `rewriteBelow`, a structural
rewrite.  Every later fact about the generate scope is proved on `rewriteBelow`. -/

/-- The leaves the callback `g` appends to `n`. -/
def addedLeaves (g : AstNode → AstNode) (n : AstNode) : List AstNode :=
  (g n).children.drop n.children.length

/-- The callback keeps a node's children in front and appends only leaves that it leaves
alone. -/
def AppendsLeaves (g : AstNode → AstNode) : Prop :=
  ∀ n, n.children <+: (g n).children ∧ ∀ l ∈ addedLeaves g n, l.children = [] ∧ g l = l

/-- The tree a walk with such a callback leaves: each child `c` becomes `g c`, with the
children of `c` rewritten below it and the leaves `g` appended after them. -/
def rewriteBelow (g : AstNode → AstNode) : AstNode → AstNode
  | n@⟨_, _, _, _, _, _, _, _, _, _, _, _, _, _, _, _, _, _, cs⟩ =>
    { n with children := rewriteList g cs }
where
  rewriteList (g : AstNode → AstNode) : List AstNode → List AstNode
    | [] => []
    | c :: cs =>
      { g c with children := (rewriteBelow g c).children ++ addedLeaves g c } :: rewriteList g cs

/-- What `rewriteBelow` makes of one child. -/
def rewriteChild (g : AstNode → AstNode) (c : AstNode) : AstNode :=
  { g c with children := (rewriteBelow g c).children ++ addedLeaves g c }

theorem rewriteBelow_eq (g : AstNode → AstNode) (n : AstNode) :
    rewriteBelow g n = { n with children := n.children.map (rewriteChild g) } := by
  have hl : ∀ cs, rewriteBelow.rewriteList g cs = cs.map (rewriteChild g) := by
    intro cs
    induction cs with
    | nil => rfl
    | cons c cs ih => rw [rewriteBelow.rewriteList, ih]; rfl
  cases n
  rw [rewriteBelow, hl]

@[simp] theorem rewriteChild_type (g : AstNode → AstNode) (c : AstNode) :
    (rewriteChild g c).type = (g c).type := rfl

@[simp] theorem rewriteChild_str (g : AstNode → AstNode) (c : AstNode) :
    (rewriteChild g c).str = (g c).str := rfl

variable {g : AstNode → AstNode}

/-- One child: the walk below `g c` leaves `rewriteChild g c`, given two levels of fuel above
the height of `c`, one of them for the leaves `g` adds. -/
theorem visitEachDescendant_rewriteChild (hg : AppendsLeaves g) :
    ∀ {fuel : Nat} (c : AstNode) (sh : WalkShared), height c + 2 ≤ fuel →
      visitEachDescendant (fun u n => (g n, u)) fuel (sh, ()) (g c) =
        some (rewriteChild g c, (sh, ()))
  | 0, _, _, h | 1, _, _, h => absurd h (by omega)
  | fuel + 2, c, sh, h => by
    have hsplit : (g c).children = c.children ++ addedLeaves g c :=
      (List.prefix_iff_eq_append.1 (hg c).1).symm
    rw [visitEachDescendant, hsplit, List.foldlM_append,
      foldlM_walkChild_eq (rewriteChild g) (fun u _ => u) _ c.children [] ()
        fun d hd _ => visitEachDescendant_rewriteChild hg d _ (by
          have := height_lt_of_mem hd; omega),
      Option.bind_eq_bind, Option.some_bind,
      foldlM_walkChild_eq id (fun u _ => u) _ _ _ () fun l hl _ => by
        rw [((hg c).2 l hl).2]; exact visitEachDescendant_leaf _ ((hg c).2 l hl).1 _ _ _]
    simp [rewriteChild, rewriteBelow_eq]

/-- **The walk of a renaming callback is `rewriteBelow`.**  When the callback only renames a
node and appends leaves it leaves alone, the walk ends with any fuel two levels above the
height of the tree, leaves `rewriteBelow g t`, and restores `shared`. -/
theorem visitEachDescendant_rewriteBelow (hg : AppendsLeaves g) {fuel : Nat} (t : AstNode)
    (sh : WalkShared) (h : height t + 2 ≤ fuel) :
    visitEachDescendant (fun u n => (g n, u)) fuel (sh, ()) t = some (rewriteBelow g t, (sh, ())) := by
  obtain ⟨fuel, rfl⟩ : ∃ k, fuel = k + 1 := ⟨fuel - 1, by omega⟩
  rw [visitEachDescendant, foldlM_walkChild_eq (rewriteChild g) (fun u _ => u) _ t.children [] ()
    fun c hc _ => visitEachDescendant_rewriteChild hg c _ (by have := height_lt_of_mem hc; omega)]
  simp [rewriteBelow_eq]

/-- A renaming callback adds at most one level: the leaves it appends to the deepest nodes. -/
theorem height_rewriteBelow_le (hg : AppendsLeaves g) (t : AstNode) :
    height (rewriteBelow g t) ≤ height t + 1 := by
  rw [height_le_iff, rewriteBelow_eq]
  simp only [List.mem_map]
  rintro _ ⟨c, hc, rfl⟩
  have hct := height_lt_of_mem hc
  have hc' : height (rewriteChild g c) ≤ height c + 1 := by
    rw [height_le_iff]
    intro x hx
    rcases List.mem_append.1 hx with hx | hx
    · have := height_lt_of_mem hx
      have := height_rewriteBelow_le hg c
      omega
    · rw [height_eq, ((hg c).2 x hx).1]
      simp [height.heightList]
  omega
termination_by height t
decreasing_by exact hct

/-- Every node below `rewriteBelow g t` has the name `g` gives a node below `t`, or is a leaf
`g` appended to one. -/
theorem mem_descendants_rewriteBelow (hg : AppendsLeaves g) {t d : AstNode}
    (hd : d ∈ descendants (rewriteBelow g t)) :
    ∃ d₀ ∈ descendants t, d.str = (g d₀).str ∨ d ∈ addedLeaves g d₀ := by
  rw [mem_descendants, rewriteBelow_eq] at hd
  simp only [List.mem_map] at hd
  obtain ⟨_, ⟨c, hc, rfl⟩, hd⟩ := hd
  have hct := height_lt_of_mem hc
  have hc_mem : c ∈ descendants t := mem_descendants.2 ⟨c, hc, .inl rfl⟩
  rcases hd with rfl | hd
  · exact ⟨c, hc_mem, .inl rfl⟩
  obtain ⟨x, hx, hd⟩ := mem_descendants.1 hd
  rcases List.mem_append.1 hx with hx | hx
  · obtain ⟨d₀, h₀, h⟩ := mem_descendants_rewriteBelow hg (mem_descendants.2 ⟨x, hx, hd⟩)
    exact ⟨d₀, mem_descendants.2 ⟨c, hc, .inr h₀⟩, h⟩
  · rcases hd with rfl | hd
    · exact ⟨c, hc_mem, .inr hx⟩
    · rw [descendants_eq, ((hg c).2 x hx).1] at hd
      cases hd
termination_by height t
decreasing_by exact hct

/-! ## 6. Names: `find`, `rfind` and the callback of `process_gen_scope_array` -/

/-- `s.find(pat)`: where `pat` first starts in `s`; `none` is `npos`. -/
def findSub (pat : List Char) : List Char → Option Nat
  | [] => if pat = [] then some 0 else none
  | c :: cs => if pat.isPrefixOf (c :: cs) then some 0 else (findSub pat cs).map (· + 1)

/-- `s.rfind(ch)`: the last position of `ch` in `s`. -/
def rfindChar (ch : Char) (s : List Char) : Option Nat :=
  (findSub [ch] s.reverse).map (s.length - 1 - ·)

theorem findSub_isSome_iff (pat : List Char) : ∀ s, (findSub pat s).isSome ↔ pat <:+: s
  | [] => by by_cases h : pat = [] <;> simp [findSub, h]
  | c :: cs => by
    rw [List.infix_cons_iff, ← findSub_isSome_iff pat cs, ← List.isPrefixOf_iff_prefix]
    by_cases h : pat.isPrefixOf (c :: cs) <;> simp [findSub, h]

theorem findSub_single {ch : Char} {pre : List Char} (rest : List Char) (h : ch ∉ pre) :
    findSub [ch] (pre ++ ch :: rest) = some pre.length := by
  induction pre with
  | nil => simp [findSub]
  | cons a pre ih =>
    have ha : ch ≠ a := fun e => h (e ▸ List.mem_cons_self _ _)
    simp [findSub, ha, ih (fun hm => h (List.mem_cons_of_mem _ hm))]

theorem rfindChar_split {ch : Char} (pre : List Char) {post : List Char} (h : ch ∉ post) :
    rfindChar ch (pre ++ ch :: post) = some pre.length := by
  rw [rfindChar, show (pre ++ ch :: post).reverse = post.reverse ++ ch :: pre.reverse by simp,
    findSub_single _ (by simpa using h), Option.map_some']
  simp only [List.length_append, List.length_cons, List.length_reverse, Option.some.injEq]
  omega

/-- The first occurrence of `ch` in `s`. -/
theorem exists_split_first {ch : Char} : ∀ {s : List Char}, ch ∈ s →
    ∃ pre rest, s = pre ++ ch :: rest ∧ ch ∉ pre
  | a :: s, h =>
    if ha : ch = a then ⟨[], s, by rw [ha]; rfl, List.not_mem_nil _⟩
    else
      have ⟨pre, rest, hs, hn⟩ := exists_split_first ((List.mem_cons.1 h).resolve_left ha)
      ⟨a :: pre, rest, by rw [hs]; rfl, by simp [ha, hn]⟩

/-- The last occurrence of `ch` in `s`. -/
theorem exists_split_last {ch : Char} {s : List Char} (h : ch ∈ s) :
    ∃ pre post, s = pre ++ ch :: post ∧ ch ∉ post := by
  obtain ⟨pre, rest, hs, hn⟩ := exists_split_first (List.mem_reverse.2 h)
  exact ⟨rest.reverse, pre.reverse, by
    rw [← List.reverse_reverse s, hs]; simp, by simpa using hn⟩

/-- `AST_PREFIX`, one of the node types the lowering otherwise keeps as `other`. -/
def prefixType : AstNodeType := .other 0

/-- `array_str`: `"[" + child->str.substr(1) + "]"`. -/
def arrayStr (param : String) : List Char := '[' :: (param.data.drop 1 ++ [']'])

/-- The callback of `process_gen_scope_array` for the parameter named `param`.  A node whose
name holds `array_str` becomes an `AST_PREFIX`: it gets the identifier `param`, then, when
its last `]` is not its last character, the identifier `\` followed by what comes two
characters after that `]`, and its name is cut at its first `[`.  Both brackets are in a
name that holds `array_str`, so the two searches find them and their `0`s are never read. -/
def prefixParam (param : String) (node : AstNode) : AstNode :=
  let s := node.str.data
  if (findSub (arrayStr param) s).isSome then
    let bracket := (rfindChar ']' s).getD 0
    { node with
      type := prefixType
      children := node.children ++ (identNode param ::
        if bracket + 2 ≤ s.length then [identNode ("\\" ++ String.mk (s.drop (bracket + 2)))]
        else [])
      str := String.mk (s.take ((findSub ['['] s).getD 0)) }
  else node

theorem lbracket_mem_arrayStr (P : String) : '[' ∈ arrayStr P := by simp [arrayStr]

theorem rbracket_mem_arrayStr (P : String) : ']' ∈ arrayStr P := by simp [arrayStr]

/-- A name without one of the brackets holds no `array_str`. -/
theorem not_arrayStr_infix_of_not_mem {P : String} {c : Char} {s : List Char} (hc : c ∈ arrayStr P)
    (h : c ∉ s) : ¬ arrayStr P <:+: s :=
  fun hi => h (hi.subset hc)

/-- The parameter's own name is too short to hold its `array_str`. -/
theorem not_arrayStr_infix_self (P : String) : ¬ arrayStr P <:+: P.data := fun hi => by
  have := hi.length_le
  simp only [arrayStr, List.length_cons, List.length_append, List.length_drop,
    List.length_singleton] at this
  omega

theorem prefixParam_of_not {P : String} {n : AstNode} (h : ¬ arrayStr P <:+: n.str.data) :
    prefixParam P n = n := by
  simp [prefixParam, findSub_isSome_iff, h]

/-- A renamed node's name has no `[`: it is cut at the first one. -/
theorem lbracket_not_mem_prefixParam {P : String} {n : AstNode} (h : arrayStr P <:+: n.str.data) :
    '[' ∉ (prefixParam P n).str.data := by
  obtain ⟨pre, rest, hs, hn⟩ := exists_split_first (h.subset (lbracket_mem_arrayStr P))
  simp only [prefixParam, (findSub_isSome_iff _ _).2 h, if_true]
  show '[' ∉ n.str.data.take _
  rw [hs, findSub_single _ hn, Option.getD_some, List.take_left]
  exact hn

/-- The leaves the callback appends: the parameter, and a member name with no `]`. -/
theorem addedLeaves_prefixParam {P : String} {n l : AstNode}
    (hl : l ∈ addedLeaves (prefixParam P) n) : l.children = [] ∧ (l.str = P ∨ ']' ∉ l.str.data) := by
  by_cases h : arrayStr P <:+: n.str.data
  · obtain ⟨pre, post, hs, hn⟩ := exists_split_last (h.subset (rbracket_mem_arrayStr P))
    simp only [addedLeaves, prefixParam, (findSub_isSome_iff _ _).2 h, if_true, List.drop_left] at hl
    rw [hs, rfindChar_split pre hn, Option.getD_some] at hl
    rcases List.mem_cons.1 hl with rfl | hl
    · exact ⟨rfl, .inl rfl⟩
    split at hl
    · obtain rfl := List.mem_singleton.1 hl
      refine ⟨rfl, .inr ?_⟩
      have hd : (pre ++ ']' :: post).drop (pre.length + 2) = post.drop 1 := by
        rw [List.drop_append_eq_append_drop]; simp
      show ']' ∉ '\\' :: (pre ++ ']' :: post).drop (pre.length + 2)
      rw [hd]
      rintro (_ | ⟨_, hm⟩)
      exact hn (List.drop_subset _ _ hm)
    · cases hl
  · simp [addedLeaves, prefixParam_of_not h] at hl

theorem appendsLeaves_prefixParam (P : String) : AppendsLeaves (prefixParam P) := by
  intro n
  refine ⟨?_, fun l hl => ?_⟩
  · by_cases h : arrayStr P <:+: n.str.data
    · simp only [prefixParam, (findSub_isSome_iff _ _).2 h, if_true]
      exact List.prefix_append _ _
    · rw [prefixParam_of_not h]
  · obtain ⟨h0, hP | hb⟩ := addedLeaves_prefixParam hl
    · exact ⟨h0, prefixParam_of_not (hP ▸ not_arrayStr_infix_self P)⟩
    · exact ⟨h0, prefixParam_of_not (not_arrayStr_infix_of_not_mem (rbracket_mem_arrayStr P) hb)⟩

/-- **`blk[P].member` becomes a prefix, and back.**  A name made of a head with no `[`, the
`array_str` of `P`, a `.` and a member name with no `]` becomes the `AST_PREFIX` of the head,
with the identifier `P` and the identifier `\member` appended: the three pieces of the name,
which spell it again. -/
theorem prefixParam_member {P : String} {n : AstNode} {pre fld : List Char}
    (hs : n.str.data = pre ++ arrayStr P ++ '.' :: fld) (hpre : '[' ∉ pre) (hfld : ']' ∉ fld) :
    prefixParam P n =
      { n with
        type := prefixType
        str := String.mk pre
        children := n.children ++ [identNode P, identNode ("\\" ++ String.mk fld)] } := by
  have hm : arrayStr P <:+: n.str.data := ⟨pre, '.' :: fld, hs.symm⟩
  have hl : n.str.data = pre ++ '[' :: (P.data.drop 1 ++ ']' :: '.' :: fld) := by
    simp [hs, arrayStr]
  have hr : n.str.data = (pre ++ '[' :: P.data.drop 1) ++ ']' :: '.' :: fld := by
    simp [hs, arrayStr]
  have hf : findSub ['['] n.str.data = some pre.length := by rw [hl]; exact findSub_single _ hpre
  have hb : rfindChar ']' n.str.data = some (pre ++ '[' :: P.data.drop 1).length := by
    rw [hr]
    exact rfindChar_split _ (by rintro (_ | ⟨_, h⟩); exact hfld h)
  have htake : n.str.data.take pre.length = pre := by rw [hl, List.take_left]
  have hle : (pre ++ '[' :: P.data.drop 1).length + 2 ≤ n.str.data.length := by rw [hr]; simp; omega
  have hdrop : n.str.data.drop ((pre ++ '[' :: P.data.drop 1).length + 2) = fld := by
    rw [hr, List.drop_append_eq_append_drop]; simp
  simp only [prefixParam, (findSub_isSome_iff _ _).2 hm, if_true, hf, hb, Option.getD_some, hle,
    htake, hdrop]

theorem prefixParam_member_blk :
    (identNode "\\blk[i].w").str.data = "\\blk".data ++ arrayStr "\\i" ++ '.' :: ['w'] ∧
      '[' ∉ "\\blk".data ∧ ']' ∉ ['w'] ∧
      prefixParam "\\i" (identNode "\\blk[i].w") =
        { identNode "\\blk[i].w" with
          type := prefixType
          str := String.mk "\\blk".data
          children := (identNode "\\blk[i].w").children ++
            [identNode "\\i", identNode ("\\" ++ String.mk ['w'])] } :=
  ⟨by decide, by decide, by decide, prefixParam_member (by decide) (by decide) (by decide)⟩

/-! ## 7. `process_gen_scope_array`

The loop over a scope's children reads each child when its turn comes, so a child that an
earlier walk renamed is no longer a parameter.  The loop keeps the parameters of the scope in
their places (`paramNames_rewriteBelow`), so with parameter names free of `]` every
parameter is walked for, and each walk clears its `[P]` without bringing back one an earlier
walk cleared. -/

/-- An `AST_PARAMETER` or `AST_LOCALPARAM`. -/
def isParamNode (c : AstNode) : Bool := c.type = .parameter ∨ c.type = .localparam

/-- One turn of the loop over a generate scope's children: for the child at `i`, when it is a
parameter or localparam, a walk of the whole scope with its `prefixParam`.
`child->str.substr(1)` throws on an empty name. -/
def genScopeParamWalk (fuel : Nat) (acc : AstNode × WalkShared) (i : Nat) :
    Option (AstNode × WalkShared) :=
  match acc.1.children[i]? with
  | some c =>
    if isParamNode c then
      if c.str = "" then none
      else (visitEachDescendant (fun u n => (prefixParam c.str n, u)) fuel (acc.2, ()) acc.1).map
        fun r => (r.1, r.2.1)
    else some acc
  | none => some acc

/-- The loop over the children of one generate scope.  The walks change the children, never
how many there are, so the range-for sees each position once. -/
def walkGenScope (fuel : Nat) (sh : WalkShared) (scope : AstNode) : Option (AstNode × WalkShared) :=
  (List.range scope.children.length).foldlM (genScopeParamWalk fuel) (scope, sh)

/-- `process_gen_scope_array`, over the generate scopes `visit_one_to_many` builds: each scope
is rewritten and its children are appended to a new `AST_GENBLOCK`, named `name` by
`make_ast_node`. -/
def processGenScopeArray (fuel : Nat) (sh : WalkShared) (name : String) (scopes : List AstNode) :
    Option (AstNode × WalkShared) :=
  scopes.foldlM (fun acc s => (walkGenScope fuel acc.2 s).map fun r =>
      ({ acc.1 with children := acc.1.children ++ r.1.children }, r.2))
    ({ new .genblock with str := name }, sh)

/-- One turn of `genScopeParamWalk` with the walk replaced by `rewriteBelow`. -/
def genScopeStep (t : AstNode) (i : Nat) : Option AstNode :=
  match t.children[i]? with
  | some c =>
    if isParamNode c then
      if c.str = "" then none else some (rewriteBelow (prefixParam c.str) t)
    else some t
  | none => some t

/-- The loop of `process_gen_scope_array` over one scope, with each walk replaced by
`rewriteBelow`. -/
def genScopeRewrite (scope : AstNode) : Option AstNode :=
  (List.range scope.children.length).foldlM genScopeStep scope

theorem genScopeParamWalk_eq {fuel : Nat} (t : AstNode) (sh : WalkShared) (i : Nat)
    (h : height t + 2 ≤ fuel) :
    genScopeParamWalk fuel (t, sh) i = (genScopeStep t i).map (·, sh) := by
  simp only [genScopeParamWalk, genScopeStep]
  split
  · split
    · split
      · rfl
      · rw [visitEachDescendant_rewriteBelow (appendsLeaves_prefixParam _) _ _ h]; rfl
    · rfl
  · rfl

theorem height_of_genScopeStep {t t' : AstNode} {i : Nat} (h : genScopeStep t i = some t') :
    height t' ≤ height t + 1 := by
  simp only [genScopeStep] at h
  split at h
  · split at h
    · split at h
      · cases h
      · cases h; exact height_rewriteBelow_le (appendsLeaves_prefixParam _) _
    · cases h; omega
  · cases h; omega

theorem foldlM_genScopeParamWalk {fuel : Nat} (sh : WalkShared) :
    ∀ (is : List Nat) (t : AstNode), height t + is.length + 2 ≤ fuel →
      is.foldlM (genScopeParamWalk fuel) (t, sh) = (is.foldlM genScopeStep t).map (·, sh)
  | [], _, _ => rfl
  | i :: is, t, h => by
    have h' : height t + is.length + 1 + 2 ≤ fuel := by simpa using h
    rw [List.foldlM_cons, List.foldlM_cons, genScopeParamWalk_eq t sh i (by omega)]
    rcases hs : genScopeStep t i with _ | t'
    · rfl
    · have := height_of_genScopeStep hs
      simp only [Option.map_some', Option.bind_eq_bind, Option.some_bind]
      exact foldlM_genScopeParamWalk sh is t' (by omega)

theorem walkGenScope_eq {fuel : Nat} (sh : WalkShared) (s : AstNode)
    (h : height s + s.children.length + 2 ≤ fuel) :
    walkGenScope fuel sh s = (genScopeRewrite s).map (·, sh) :=
  foldlM_genScopeParamWalk sh _ s (by simpa using h)

/-- The loop over the scopes, from any block. -/
theorem foldlM_walkGenScope {fuel : Nat} (sh : WalkShared) :
    ∀ (ss : List AstNode) (blk : AstNode), (∀ s ∈ ss, height s + s.children.length + 2 ≤ fuel) →
      ss.foldlM (fun acc s => (walkGenScope fuel acc.2 s).map fun r =>
          ({ acc.1 with children := acc.1.children ++ r.1.children }, r.2)) (blk, sh) =
        (ss.mapM genScopeRewrite).map fun ts =>
          ({ blk with children := blk.children ++ ts.flatMap (·.children) }, sh)
  | [], blk, _ => by
    rw [List.foldlM_nil, List.mapM_nil]
    simp [with_children_self]
  | s :: ss, blk, h => by
    rw [List.foldlM_cons, List.mapM_cons]
    simp only [walkGenScope_eq sh s (h s (.head _))]
    rcases genScopeRewrite s with _ | t
    · rfl
    · simp only [Option.map_some', Option.bind_eq_bind, Option.some_bind,
        foldlM_walkGenScope sh ss _ fun s' hs' => h s' (.tail _ hs')]
      rcases ss.mapM genScopeRewrite with _ | ts
      · rfl
      · simp [List.append_assoc]

/-- **`process_gen_scope_array` ends, and is a structural rewrite.**  With fuel two levels
above the height of each scope plus one level per child (the leaves each walk may add), the
walks end, every scope comes out as `genScopeRewrite` makes it, the block holds their
children in order, and `shared` is as it was. -/
theorem processGenScopeArray_eq {fuel : Nat} (sh : WalkShared) (name : String)
    (scopes : List AstNode) (hfuel : ∀ s ∈ scopes, height s + s.children.length + 2 ≤ fuel) :
    processGenScopeArray fuel sh name scopes =
      (scopes.mapM genScopeRewrite).map fun ts =>
        ({ new .genblock with str := name, children := ts.flatMap (·.children) }, sh) :=
  foldlM_walkGenScope sh scopes _ hfuel

/-- A generate scope holding the localparam `\i` and a use of `\blk[i].w`. -/
def scopeBlk : AstNode :=
  { new .genblock with
    str := "\\blk[0]"
    children := [{ new .localparam with str := "\\i" }, identNode "\\blk[i].w"] }

theorem processGenScopeArray_eq_scopeBlk :
    (∀ s ∈ [scopeBlk], height s + s.children.length + 2 ≤ 5) ∧
    processGenScopeArray 5 ⟨none, []⟩ "\\blk" [scopeBlk] =
      ([scopeBlk].mapM genScopeRewrite).map fun ts =>
        ({ new .genblock with str := "\\blk", children := ts.flatMap (·.children) }, ⟨none, []⟩) :=
  ⟨by decide, processGenScopeArray_eq _ _ _ (by decide)⟩

/-- No name below `t` holds `[P]`, the `array_str` of the parameter `P`. -/
def Cleared (P : String) (t : AstNode) : Prop :=
  ∀ d ∈ descendants t, ¬ arrayStr P <:+: d.str.data

/-- The names of a scope's parameters and localparams by position: what the loop over its
children reads. -/
def paramNames (t : AstNode) : List (Option String) :=
  t.children.map fun c => if isParamNode c then some c.str else none

theorem genScopeStep_eq (t : AstNode) (i : Nat) :
    genScopeStep t i =
      match (paramNames t)[i]? with
      | some (some P) => if P = "" then none else some (rewriteBelow (prefixParam P) t)
      | _ => some t := by
  simp only [genScopeStep, paramNames, List.getElem?_map]
  cases t.children[i]? with
  | none => rfl
  | some c => by_cases hc : isParamNode c <;> simp [hc]

/-- The callback leaves alone a node whose name has no `]`. -/
theorem prefixParam_of_rbracket {Q : String} {c : AstNode} (h : ']' ∉ c.str.data) :
    prefixParam Q c = c :=
  prefixParam_of_not (not_arrayStr_infix_of_not_mem (rbracket_mem_arrayStr Q) h)

/-- A node the callback renames is no longer a parameter. -/
theorem isParamNode_prefixParam {Q : String} {c : AstNode} (h : isParamNode (prefixParam Q c)) :
    prefixParam Q c = c := by
  by_cases hm : arrayStr Q <:+: c.str.data
  · simp [prefixParam, (findSub_isSome_iff _ _).2 hm, isParamNode, prefixType] at h
  · exact prefixParam_of_not hm

/-- The callback never holds `array_str` in the name it leaves. -/
theorem not_arrayStr_prefixParam (Q : String) (n : AstNode) :
    ¬ arrayStr Q <:+: (prefixParam Q n).str.data := by
  by_cases hm : arrayStr Q <:+: n.str.data
  · exact not_arrayStr_infix_of_not_mem (lbracket_mem_arrayStr Q) (lbracket_not_mem_prefixParam hm)
  · rwa [prefixParam_of_not hm]

/-- A walk keeps the parameters of a scope in their places, when their names have no `]`. -/
theorem paramNames_rewriteBelow {Q : String} {t : AstNode}
    (h : ∀ o ∈ paramNames t, ∀ P ∈ o, ']' ∉ P.data) :
    paramNames (rewriteBelow (prefixParam Q) t) = paramNames t := by
  rw [paramNames, rewriteBelow_eq, paramNames, List.map_map]
  refine List.map_congr_left fun c hc => ?_
  have hc' : isParamNode c → ']' ∉ c.str.data := fun hp =>
    h _ (List.mem_map.2 ⟨c, hc, rfl⟩) c.str (by simp [hp])
  show (if isParamNode (prefixParam Q c) then some (prefixParam Q c).str else none) = _
  by_cases hg : isParamNode (prefixParam Q c)
  · rw [isParamNode_prefixParam hg]
  · have hp : ¬ isParamNode c := fun hp => hg (by rwa [prefixParam_of_rbracket (hc' hp)])
    simp [hg, hp]

/-- The walk for `Q` clears `[Q]`. -/
theorem cleared_rewriteBelow_self (Q : String) (t : AstNode) :
    Cleared Q (rewriteBelow (prefixParam Q) t) := by
  intro d hd
  obtain ⟨d₀, -, hstr | hleaf⟩ := mem_descendants_rewriteBelow (appendsLeaves_prefixParam Q) hd
  · rw [hstr]; exact not_arrayStr_prefixParam Q d₀
  · obtain ⟨-, hQ | hb⟩ := addedLeaves_prefixParam hleaf
    · rw [hQ]; exact not_arrayStr_infix_self Q
    · exact not_arrayStr_infix_of_not_mem (rbracket_mem_arrayStr Q) hb

/-- A walk for a parameter `Q` whose name has no `]` brings back no `[P]`. -/
theorem cleared_rewriteBelow {P Q : String} {t : AstNode} (hQ : ']' ∉ Q.data) (h : Cleared P t) :
    Cleared P (rewriteBelow (prefixParam Q) t) := by
  intro d hd
  obtain ⟨d₀, h₀, hstr | hleaf⟩ := mem_descendants_rewriteBelow (appendsLeaves_prefixParam Q) hd
  · rw [hstr]
    by_cases hm : arrayStr Q <:+: d₀.str.data
    · exact not_arrayStr_infix_of_not_mem (lbracket_mem_arrayStr P) (lbracket_not_mem_prefixParam hm)
    · rw [prefixParam_of_not hm]; exact h d₀ h₀
  · obtain ⟨-, hQ' | hb⟩ := addedLeaves_prefixParam hleaf
    · rw [hQ']; exact not_arrayStr_infix_of_not_mem (rbracket_mem_arrayStr P) hQ
    · exact not_arrayStr_infix_of_not_mem (rbracket_mem_arrayStr P) hb

/-- The loop of one scope, from any position on: the parameters stay in their places, and
every parameter walked for so far is cleared. -/
theorem foldlM_genScopeStep_cleared {N : List (Option String)}
    (hN : ∀ o ∈ N, ∀ P ∈ o, P ≠ "" ∧ ']' ∉ P.data) :
    ∀ (is : List Nat) (t : AstNode) (Ps : List String), paramNames t = N →
      (∀ P ∈ Ps, Cleared P t) →
      ∃ t', is.foldlM genScopeStep t = some t' ∧ paramNames t' = N ∧
        ∀ P ∈ Ps ++ is.filterMap (fun i => N[i]?.join), Cleared P t'
  | [], t, Ps, hN', hP => ⟨t, rfl, hN', by simpa using hP⟩
  | i :: is, t, Ps, hN', hP => by
    rw [List.foldlM_cons, genScopeStep_eq, hN']
    rcases hi : N[i]? with _ | _ | Q
    · simpa [hi] using foldlM_genScopeStep_cleared hN is t Ps hN' hP
    · simpa [hi] using foldlM_genScopeStep_cleared hN is t Ps hN' hP
    · obtain ⟨hQ, hQb⟩ := hN _ (List.getElem?_mem hi) Q rfl
      have hkeep : paramNames (rewriteBelow (prefixParam Q) t) = N := by
        rw [paramNames_rewriteBelow fun o ho P hP => (hN o (hN' ▸ ho) P hP).2, hN']
      obtain ⟨t', h1, h2, h3⟩ := foldlM_genScopeStep_cleared hN is _ (Ps ++ [Q]) hkeep
        (by
          simp only [List.mem_append, List.mem_singleton]
          rintro P (hP' | rfl)
          · exact cleared_rewriteBelow hQb (hP P hP')
          · exact cleared_rewriteBelow_self P t)
      refine ⟨t', by simpa [hQ] using h1, h2, fun P hP' => h3 P ?_⟩
      simpa [hi] using hP'

/-- Every parameter of a scope whose parameter names are non-empty and free of `]` is walked
for, and its `[P]` is gone from the rewritten scope. -/
theorem genScopeRewrite_cleared {s : AstNode}
    (h : ∀ o ∈ paramNames s, ∀ P ∈ o, P ≠ "" ∧ ']' ∉ P.data) :
    ∃ t, genScopeRewrite s = some t ∧ ∀ o ∈ paramNames s, ∀ P ∈ o, Cleared P t := by
  obtain ⟨t, ht, -, hc⟩ := foldlM_genScopeStep_cleared h (List.range s.children.length) s [] rfl
    (by simp)
  refine ⟨t, ht, fun o ho P hP => hc P ?_⟩
  obtain ⟨i, hi⟩ := List.mem_iff_getElem?.1 ho
  have hlt : i < s.children.length := by
    simpa [paramNames] using (List.getElem?_eq_some_iff.1 hi).1
  simp only [List.nil_append, List.mem_filterMap, List.mem_range]
  exact ⟨i, hlt, by simp [hi, Option.mem_def.1 hP]⟩

theorem mapM_eq_some_forall₂ {α β : Type} {f : α → Option β} {R : α → β → Prop} :
    ∀ {l : List α}, (∀ a ∈ l, ∃ b, f a = some b ∧ R a b) →
      ∃ bs, l.mapM f = some bs ∧ List.Forall₂ R l bs
  | [], _ => ⟨[], rfl, .nil⟩
  | a :: l, h => by
    obtain ⟨b, hb, hR⟩ := h a (.head _)
    obtain ⟨bs, hbs, hR'⟩ := mapM_eq_some_forall₂ fun a' ha' => h a' (.tail _ ha')
    exact ⟨b :: bs, by rw [List.mapM_cons, hb, hbs]; rfl, .cons hR hR'⟩

/-- **After `process_gen_scope_array` no name holds `[P]`.**  With enough fuel, and parameter
names that are non-empty and free of `]`, the walks end, the block holds the children of the
rewritten scopes in order, and below each rewritten scope no name holds `[P]` for any
parameter or localparam `P` of that scope. -/
theorem processGenScopeArray_cleared {fuel : Nat} (sh : WalkShared) (name : String)
    {scopes : List AstNode} (hfuel : ∀ s ∈ scopes, height s + s.children.length + 2 ≤ fuel)
    (hnames : ∀ s ∈ scopes, ∀ o ∈ paramNames s, ∀ P ∈ o, P ≠ "" ∧ ']' ∉ P.data) :
    ∃ ts, processGenScopeArray fuel sh name scopes =
        some ({ new .genblock with str := name, children := ts.flatMap (·.children) }, sh) ∧
      List.Forall₂ (fun s t => ∀ o ∈ paramNames s, ∀ P ∈ o, Cleared P t) scopes ts := by
  obtain ⟨ts, hts, hR⟩ := mapM_eq_some_forall₂ fun s hs => genScopeRewrite_cleared (hnames s hs)
  exact ⟨ts, by rw [processGenScopeArray, foldlM_walkGenScope sh scopes _ hfuel, hts]; rfl, hR⟩

theorem processGenScopeArray_cleared_scopeBlk :
    (∀ s ∈ [scopeBlk], height s + s.children.length + 2 ≤ 5) ∧
    (∀ s ∈ [scopeBlk], ∀ o ∈ paramNames s, ∀ P ∈ o, P ≠ "" ∧ ']' ∉ P.data) ∧
    ∃ ts, processGenScopeArray 5 ⟨none, []⟩ "\\blk" [scopeBlk] =
        some ({ new .genblock with str := "\\blk", children := ts.flatMap (·.children) },
          ⟨none, []⟩) ∧
      List.Forall₂ (fun s t => ∀ o ∈ paramNames s, ∀ P ∈ o, Cleared P t) [scopeBlk] ts :=
  ⟨by decide, by decide, processGenScopeArray_cleared _ _ (by decide) (by decide)⟩

example :
    (genScopeRewrite scopeBlk).map (fun t => t.children.map fun c => (c.str, c.children.map (·.str))) =
      some [("\\i", []), ("\\blk", ["\\i", "\\w"])] := by
  decide

end UhdmPlugin
