/-
# The walker's frames and `find_ancestor`

`process_object` lowers a UHDM object in a fresh `UhdmAst` whose `parent` is the walker
that visits it, so the walkers active at any moment form a chain of frames from the object
being lowered out to the root that `visit_designs` made.  `find_ancestor(types)` follows
that chain from the current frame outwards and returns the first `current_node` whose type
is in `types`, or `nullptr`.  Six lowerings dereference what it returns with no check
(`Site`): `visit_default_expr` and `process_real_var` look for an `AST_MODULE`,
`process_event_control` for an `AST_ALWAYS`, `process_stream_op` for an assignment,
`process_tagged_pattern`, when no assignment is above it, for a declaration, and the logic,
int and bit typespecs that have a name for a module or a package.

The model keeps the part of the dispatch that reaches those lowerings: designs, packages,
interfaces, module definitions and instances, generate scopes, functions and tasks,
processes, blocks, event controls, `if`/`else`, assignments, parameters and their
assignments, nets and variables, operations (streaming, assignment patterns and the rest),
tagged patterns and the three typespecs.  A UHDM tree is `VpiObj`; `admits` says that every
child is one the visit lists of its parent reach.  A child is walked under its parent's
frame (`childFrames`), except that an interface and a streaming operator set no
`current_node`, a tagged pattern's value is walked under the assignment it builds, and a
variable's initialiser is walked by `visit_default_expr` under two frames of its own above
the variable's parent.

* `lookups_found_of_frame`: below a frame of a type a lowering looks for, every lookup of
  that lowering finds one.
* `walk_package_function_var`: an initialised `int` variable local to a function of a
  package is walked with no module frame, and `visit_default_expr` dereferences `nullptr`.
* `eventControl_in_initial`: every event control with a condition in an `initial` process
  dereferences `nullptr`.
* `streamOp_outside_assignment`: so does every streaming operator with no assignment on its
  chain, such as one in the initialiser of a variable.
-/
import UhdmPlugin.Ast

namespace UhdmPlugin

/-! ## 1. Frames and `find_ancestor` -/

/-- `find_ancestor(types)`: the type of the first `current_node` in the chain of frames,
innermost first, whose type is in `types`.  A frame whose `current_node` is not set yet is
`none`. -/
def findAncestor (types : List AstNodeType) : List (Option AstNodeType) → Option AstNodeType
  | [] => none
  | some t :: frames => if t ∈ types then some t else findAncestor types frames
  | none :: frames => findAncestor types frames

theorem findAncestor_of_mem {types : List AstNodeType} {t : AstNodeType} (ht : t ∈ types) :
    ∀ {frames : List (Option AstNodeType)}, some t ∈ frames → (findAncestor types frames).isSome
  | [], h => absurd h (List.not_mem_nil _)
  | some t' :: frames, h => by
    by_cases ht' : t' ∈ types
    · simp [findAncestor, ht']
    · rw [findAncestor, if_neg ht']
      rcases List.mem_cons.1 h with h | h
      · exact absurd (Option.some.inj h ▸ ht) ht'
      · exact findAncestor_of_mem ht h
  | none :: frames, h => by
    rw [findAncestor]
    exact findAncestor_of_mem ht (by simpa using h)

theorem findAncestor_mem {types : List AstNodeType} {t : AstNodeType} :
    ∀ {frames : List (Option AstNodeType)}, findAncestor types frames = some t → t ∈ types
  | [], h => by cases h
  | some t' :: frames, h => by
    by_cases ht' : t' ∈ types
    · rw [findAncestor, if_pos ht'] at h
      exact Option.some.inj h ▸ ht'
    · rw [findAncestor, if_neg ht'] at h
      exact findAncestor_mem h
  | none :: frames, h => by
    rw [findAncestor] at h
    exact findAncestor_mem h

/-- With a frame of a type in `types` in the chain, `find_ancestor(types)` finds one. -/
theorem findAncestor_found {types : List AstNodeType} {t : AstNodeType} (ht : t ∈ types)
    {frames : List (Option AstNodeType)} (h : some t ∈ frames) :
    ∃ t', findAncestor types frames = some t' ∧ t' ∈ types := by
  obtain ⟨t', h'⟩ := Option.isSome_iff_exists.1 (findAncestor_of_mem ht h)
  exact ⟨t', h', findAncestor_mem h'⟩

/-- With no frame of a type in `types` in the chain, `find_ancestor(types)` is `nullptr`. -/
theorem findAncestor_eq_none {types : List AstNodeType} :
    ∀ {frames : List (Option AstNodeType)}, (∀ t ∈ types, some t ∉ frames) →
      findAncestor types frames = none
  | [], _ => rfl
  | some t' :: frames, h => by
    have ht' : t' ∉ types := fun ht => h t' ht (List.mem_cons_self _ _)
    rw [findAncestor, if_neg ht',
      findAncestor_eq_none fun t ht hm => h t ht (List.mem_cons_of_mem _ hm)]
  | none :: frames, h => by
    rw [findAncestor, findAncestor_eq_none fun t ht hm => h t ht (List.mem_cons_of_mem _ hm)]

/-! ## 2. The dispatch -/

/-- The kinds of UHDM object the walk dispatches on.  `contAssignNet` and `contAssignVarInit`
are the two lowerings `process_cont_assign` chooses between; `assignment` is a blocking or
nonblocking `vpiAssignment`. -/
inductive VpiKind
  | design | package | moduleDef | moduleInst | genScopeArray | genScope | function | task
  | always | initial | begin | intVar | realVar
  | interface | net | logicVar | parameter | paramAssign | contAssignNet | contAssignVarInit
  | assignment | eventControl | ifElse | operation | streamOp | assignPatternOp | taggedPattern
  | logicTypespec | intTypespec | bitTypespec
  deriving DecidableEq, Repr

/-- A UHDM object: its kind, whether it has the optional part its lowering tests (a
variable's `vpiExpr`, an event control's `vpiCondition`, a typespec's name), and the objects
the visits of `process_object` reach from it, in order. -/
inductive VpiObj
  | mk (kind : VpiKind) (opt : Bool) (children : List VpiObj)

def VpiObj.kind : VpiObj → VpiKind
  | .mk k _ _ => k

/-- `AST_ASSIGN`, `AST_ASSIGN_EQ` and `AST_ASSIGN_LE`. -/
def assignTypes : List AstNodeType := [.assign, .assignEq, .assignLe]

def stmtKinds : List VpiKind := [.begin, .eventControl, .assignment, .ifElse]

def exprKinds : List VpiKind := [.operation, .streamOp, .assignPatternOp, .taggedPattern]

def typespecKinds : List VpiKind := [.logicTypespec, .intTypespec, .bitTypespec]

/-- The type of `current_node` while `process_object` visits an object's children: a module
instance is an `AST_CELL`, a generate scope an `AST_GENBLOCK`, a block or an event control
an `AST_BLOCK`, `if`/`else` an `AST_CASE`, an operation an `AST_NONE` until its operands are
in; an interface and a streaming operator set none.  A blocking assignment is an
`AST_ASSIGN_EQ` (a nonblocking one an `AST_ASSIGN_LE`) and a parameter an `AST_PARAMETER` (a
localparam an `AST_LOCALPARAM`): no lookup tells the two apart. -/
def nodeType : VpiKind → Option AstNodeType
  | .design => some .design
  | .package => some .package
  | .moduleDef => some .module
  | .moduleInst => some .cell
  | .genScopeArray | .genScope => some .genblock
  | .function => some .function
  | .task => some .task
  | .always => some .always
  | .initial | .contAssignVarInit => some .initial
  | .begin | .eventControl => some .block
  | .intVar | .logicVar | .net | .logicTypespec | .intTypespec | .bitTypespec => some .wire
  | .realVar => some .identifier
  | .interface | .streamOp => none
  | .parameter | .paramAssign => some .parameter
  | .contAssignNet | .taggedPattern => some .assign
  | .assignment => some .assignEq
  | .ifElse => some .caseNode
  | .operation => some .none
  | .assignPatternOp => some .concat

/-- The kinds the visit lists of each lowering reach. -/
def visits : VpiKind → List VpiKind
  | .design => [.interface, .package, .moduleDef]
  | .package => [.parameter, .paramAssign, .function, .task] ++ typespecKinds
  | .moduleDef => [.moduleInst, .interface, .parameter, .paramAssign, .net, .genScopeArray,
      .contAssignNet, .contAssignVarInit, .always, .initial, .function, .task, .intVar,
      .realVar, .logicVar] ++ typespecKinds
  | .moduleInst => [.paramAssign, .intVar, .realVar, .logicVar, .net, .interface, .moduleInst,
      .genScopeArray]
  | .interface => [.net]
  | .genScopeArray => [.genScope]
  | .genScope => [.paramAssign, .parameter, .net, .intVar, .realVar, .logicVar, .contAssignNet,
      .contAssignVarInit, .always, .initial, .moduleInst, .genScopeArray] ++ typespecKinds
  | .function | .task => [.intVar, .realVar, .logicVar] ++ stmtKinds
  | .always | .initial | .begin => stmtKinds
  | .eventControl | .ifElse => exprKinds ++ stmtKinds
  | .assignment | .contAssignNet | .contAssignVarInit | .intVar | .realVar => exprKinds
  | .operation | .streamOp | .assignPatternOp | .taggedPattern => exprKinds
  | .paramAssign => .parameter :: exprKinds
  | .logicVar => typespecKinds ++ exprKinds
  | .net | .parameter => typespecKinds
  | .logicTypespec | .intTypespec | .bitTypespec => []

mutual

/-- A tree the dispatch can build: every child is one its parent's visit lists reach. -/
def admits : VpiObj → Bool
  | .mk k _ cs => admitsList k cs

def admitsList (k : VpiKind) : List VpiObj → Bool
  | [] => true
  | .mk k' e cs' :: cs => k' ∈ visits k && admits (.mk k' e cs') && admitsList k cs

end

mutual

/-- The kinds of the objects of a tree. -/
def kinds : VpiObj → List VpiKind
  | .mk k _ cs => k :: kindsList cs

def kindsList : List VpiObj → List VpiKind
  | [] => []
  | c :: cs => kinds c ++ kindsList cs

end

/-! ## 3. The walk -/

/-- The lowerings that dereference a `find_ancestor` result unchecked. -/
inductive Site
  | defaultExpr | realVar | eventControl | streamOp | taggedPattern | typespec
  deriving DecidableEq, Repr

/-- The types each site looks for. -/
def Site.types : Site → List AstNodeType
  | .defaultExpr | .realVar => [.module]
  | .eventControl => [.always]
  | .streamOp => assignTypes
  | .taggedPattern => [.wire, .memory, .parameter, .localparam]
  | .typespec => [.module, .package]

/-- A lookup of site `s` from a frame `x` of the object's own, above `frames`: the site and
what it finds. -/
def lookup (s : Site) (x : Option AstNodeType) (frames : List (Option AstNodeType)) :
    Site × Option AstNodeType :=
  (s, findAncestor s.types (x :: frames))

/-- The unchecked lookups of an object's own lowering, with `frames` the chain above it: an
initialised variable's `visit_default_expr` (its own frame already an `AST_WIRE`);
`process_real_var`'s lookup, before it sets its own `current_node`, and its
`visit_default_expr` when initialised; an event control's, once its condition is lowered;
a streaming operator's, which sets no node; a tagged pattern's, when there is no assignment
above it; a named typespec's, from the `AST_WIRE` it made. -/
def ownLookups (frames : List (Option AstNodeType)) :
    VpiKind → Bool → List (Site × Option AstNodeType)
  | .intVar, true | .logicVar, true => [lookup .defaultExpr (some .wire) frames]
  | .realVar, e => lookup .realVar none frames ::
      if e then [lookup .defaultExpr (some .identifier) frames] else []
  | .eventControl, true => [lookup .eventControl (some .block) frames]
  | .streamOp, _ => [lookup .streamOp none frames]
  | .taggedPattern, _ =>
    if (findAncestor assignTypes (none :: frames)).isSome then []
    else [lookup .taggedPattern none frames]
  | .logicTypespec, true | .intTypespec, true | .bitTypespec, true =>
    [lookup .typespec (some .wire) frames]
  | _, _ => []

/-- The chain a child of kind `c` of an object of kind `k` is walked under, `frames` the
chain above the object. -/
def childFrames (frames : List (Option AstNodeType)) (k c : VpiKind) :
    List (Option AstNodeType) :=
  if k ∈ [.intVar, .realVar, .logicVar] ∧ c ∈ exprKinds then none :: none :: frames
  else if k = .taggedPattern then
    some ((findAncestor assignTypes (none :: frames)).getD .assign) :: frames
  else nodeType k :: frames

mutual

/-- Every unchecked lookup of the walk of an object, in order, with `frames` the chain above
it. -/
def lookups (frames : List (Option AstNodeType)) : VpiObj → List (Site × Option AstNodeType)
  | .mk k e cs => ownLookups frames k e ++ lookupsList frames k cs

def lookupsList (frames : List (Option AstNodeType)) (k : VpiKind) :
    List VpiObj → List (Site × Option AstNodeType)
  | [] => []
  | .mk k' e cs' :: cs => lookups (childFrames frames k k') (.mk k' e cs') ++ lookupsList frames k cs

end

/-- What every unchecked `find_ancestor({AST_MODULE})` of the walk returns, in order. -/
def walk (frames : List (Option AstNodeType)) (t : VpiObj) : List (Option AstNodeType) :=
  (lookups frames t).filterMap fun l =>
    if l.1 = .defaultExpr ∨ l.1 = .realVar then some l.2 else none

/-! ## 4. What the lookups find -/

/-- An object's own lookups start from a frame of its own that is never of a type the site
looks for. -/
theorem ownLookups_head {frames : List (Option AstNodeType)} {k : VpiKind} {e : Bool} :
    ∀ l ∈ ownLookups frames k e, ∃ s x, l = lookup s x frames ∧ ∀ t ∈ s.types, x ≠ some t := by
  intro l hl
  unfold ownLookups at hl
  split at hl <;> (try split at hl) <;>
    simp only [List.mem_cons, List.mem_singleton, List.not_mem_nil, or_false] at hl <;>
    (try rcases hl with rfl | rfl) <;> exact ⟨_, _, rfl, by decide⟩

/-- The types of the frames a child of kind `c` of a `k` is walked under, above its
parent's chain. -/
def addedTypes (k c : VpiKind) : List (Option AstNodeType) :=
  if k ∈ [.intVar, .realVar, .logicVar] ∧ c ∈ exprKinds then [none]
  else if k = .taggedPattern then assignTypes.map some
  else [nodeType k]

theorem mem_childFrames {frames : List (Option AstNodeType)} {k c : VpiKind}
    {x : Option AstNodeType} (h : x ∈ childFrames frames k c) :
    x ∈ frames ∨ x ∈ addedTypes k c := by
  unfold childFrames at h
  unfold addedTypes
  split_ifs at h ⊢
  · simp only [List.mem_cons] at h
    rcases h with rfl | rfl | h
    · exact .inr (List.mem_singleton_self _)
    · exact .inr (List.mem_singleton_self _)
    · exact .inl h
  · rcases List.mem_cons.1 h with rfl | h
    · refine .inr (List.mem_map_of_mem _ ?_)
      cases hf : findAncestor assignTypes (none :: frames) with
      | none => decide
      | some t => exact findAncestor_mem hf
    · exact .inl h
  · rcases List.mem_cons.1 h with rfl | h
    · exact .inr (List.mem_singleton_self _)
    · exact .inl h

theorem subset_childFrames {frames : List (Option AstNodeType)} {k c : VpiKind}
    {x : Option AstNodeType} (h : x ∈ frames) : x ∈ childFrames frames k c := by
  unfold childFrames
  split_ifs <;> simp [h]

mutual

theorem lookups_found {s : Site} {t : AstNodeType} (ht : t ∈ s.types)
    {frames : List (Option AstNodeType)} (h : some t ∈ frames) :
    ∀ (o : VpiObj), ∀ l ∈ lookups frames o, l.1 = s → ∃ t', l.2 = some t' ∧ t' ∈ s.types
  | .mk k e cs, l, hl, hs => by
    rw [lookups, List.mem_append] at hl
    rcases hl with hl | hl
    · obtain ⟨s', x, rfl, -⟩ := ownLookups_head l hl
      subst hs
      exact findAncestor_found ht (List.mem_cons_of_mem _ h)
    · exact lookupsList_found ht h k cs l hl hs

theorem lookupsList_found {s : Site} {t : AstNodeType} (ht : t ∈ s.types)
    {frames : List (Option AstNodeType)} (h : some t ∈ frames) :
    ∀ (k : VpiKind) (cs : List VpiObj), ∀ l ∈ lookupsList frames k cs, l.1 = s →
      ∃ t', l.2 = some t' ∧ t' ∈ s.types
  | _, [], l, hl, _ => absurd hl (List.not_mem_nil _)
  | k, .mk k' e cs' :: cs, l, hl, hs => by
    rw [lookupsList, List.mem_append] at hl
    rcases hl with hl | hl
    · exact lookups_found ht (subset_childFrames h) (.mk k' e cs') l hl hs
    · exact lookupsList_found ht h k cs l hl hs

end

section Avoid

variable {s : Site} {K : List VpiKind}
  (hadd : ∀ k ∈ K, ∀ c ∈ K, ∀ x ∈ addedTypes k c, ∀ t ∈ s.types, x ≠ some t)
include hadd

mutual

/-- In a tree of kinds whose frames are never of a type the site `s` looks for, walked
under a chain with none either, every lookup of `s` is `nullptr`. -/
theorem lookups_none {frames : List (Option AstNodeType)} (hf : ∀ t ∈ s.types, some t ∉ frames) :
    ∀ (o : VpiObj), (∀ k ∈ kinds o, k ∈ K) → ∀ l ∈ lookups frames o, l.1 = s → l.2 = none
  | .mk k e cs, hK, l, hl, hs => by
    rw [lookups, List.mem_append] at hl
    rcases hl with hl | hl
    · obtain ⟨s', x, rfl, hxs⟩ := ownLookups_head l hl
      subst hs
      refine findAncestor_eq_none fun t ht hm => ?_
      rcases List.mem_cons.1 hm with hm | hm
      · exact hxs t ht hm.symm
      · exact hf t ht hm
    · exact lookupsList_none hf k (hK k (List.mem_cons_self _ _)) cs
        (fun k' hk' => hK k' (List.mem_cons_of_mem _ hk')) l hl hs

theorem lookupsList_none {frames : List (Option AstNodeType)}
    (hf : ∀ t ∈ s.types, some t ∉ frames) :
    ∀ (k : VpiKind), k ∈ K → ∀ (cs : List VpiObj), (∀ k' ∈ kindsList cs, k' ∈ K) →
      ∀ l ∈ lookupsList frames k cs, l.1 = s → l.2 = none
  | _, _, [], _, l, hl, _ => absurd hl (List.not_mem_nil _)
  | k, hk, .mk k' e cs' :: cs, hK, l, hl, hs => by
    have hK₁ : ∀ x ∈ kinds (.mk k' e cs'), x ∈ K := fun x hx => hK x (List.mem_append_left _ hx)
    have hk' : k' ∈ K := hK₁ k' (List.mem_cons_self _ _)
    rw [lookupsList, List.mem_append] at hl
    rcases hl with hl | hl
    · refine lookups_none (fun t ht hm => ?_) (.mk k' e cs') hK₁ l hl hs
      rcases mem_childFrames hm with hm | hm
      · exact hf t ht hm
      · exact hadd k hk k' hk' _ hm t ht rfl
    · exact lookupsList_none hf k hk cs (fun x hx => hK x (List.mem_append_right _ hx)) l hl hs

end

end Avoid

mutual

/-- The kinds of an admitted tree stay among kinds closed under the visit lists. -/
theorem kinds_of_admits {K : List VpiKind} (hK : ∀ k ∈ K, ∀ c ∈ visits k, c ∈ K) :
    ∀ (o : VpiObj), admits o = true → o.kind ∈ K → ∀ k ∈ kinds o, k ∈ K
  | .mk k e cs, ho, hk, k', hk' => by
    rw [kinds, List.mem_cons] at hk'
    rcases hk' with rfl | hk'
    · exact hk
    · exact kindsList_of_admits hK k hk cs ho k' hk'

theorem kindsList_of_admits {K : List VpiKind} (hK : ∀ k ∈ K, ∀ c ∈ visits k, c ∈ K) :
    ∀ (k : VpiKind), k ∈ K → ∀ (cs : List VpiObj), admitsList k cs = true →
      ∀ k' ∈ kindsList cs, k' ∈ K
  | _, _, [], _, _, h => absurd h (List.not_mem_nil _)
  | k, hk, .mk k₁ e cs' :: cs, hcs, k', hk' => by
    simp only [admitsList, Bool.and_eq_true, decide_eq_true_eq] at hcs
    rw [kindsList, List.mem_append] at hk'
    rcases hk' with hk' | hk'
    · exact kinds_of_admits hK (.mk k₁ e cs') hcs.1.2 (hK k hk k₁ hcs.1.1) k' hk'
    · exact kindsList_of_admits hK k hk cs hcs.2 k' hk'

end

/-! ## 5. Three chains with no such frame -/

/-- `package p; function f; int x = 0; ... endfunction endpackage`. -/
def packageFunctionVar : VpiObj :=
  .mk .design false [.mk .package false [.mk .function false [.mk .intVar true []]]]

/-- The dispatch builds the chain design, package, function, `int` variable, and the
variable's `visit_default_expr` finds no module: `mod->children` dereferences `nullptr`. -/
theorem walk_package_function_var :
    admits packageFunctionVar = true ∧ walk [some .design] packageFunctionVar = [none] :=
  ⟨rfl, rfl⟩

/-- The statements and expressions an `initial` process holds. -/
def initialKinds : List VpiKind := .initial :: stmtKinds ++ exprKinds

/-- **An event control in an `initial` process dereferences `nullptr`.**  In every admitted
`initial` process, walked under a chain with no `AST_ALWAYS` -- a module or a generate scope
and what is above it -- every event control with a condition looks for an `AST_ALWAYS`
among frames that are blocks, assignments, `if`s, operations and the `initial`, and finds
none. -/
theorem eventControl_in_initial {frames : List (Option AstNodeType)} {o : VpiObj}
    (ho : admits o = true) (hk : o.kind = .initial) (hf : some .always ∉ frames) :
    ∀ l ∈ lookups frames o, l.1 = .eventControl → l.2 = none :=
  lookups_none (K := initialKinds) (by decide) (by simpa [Site.types] using hf) o
    (kinds_of_admits (by decide) o ho (by rw [hk]; decide))

/-- `initial begin @(posedge clk); end` -/
def initialEvent : VpiObj :=
  .mk .initial false [.mk .begin false [.mk .eventControl true [.mk .operation false []]]]

theorem eventControl_in_initial_initialEvent :
    admits initialEvent = true ∧ initialEvent.kind = .initial ∧
      some AstNodeType.always ∉ [some .module, some .design, some .design] ∧
      ∀ l ∈ lookups [some .module, some .design, some .design] initialEvent,
        l.1 = .eventControl → l.2 = none :=
  ⟨rfl, rfl, by decide, eventControl_in_initial rfl rfl (by decide)⟩

/-- Variables, their typespecs, and the expressions with no tagged pattern: a tagged
pattern's value is walked under the assignment it builds. -/
def initialiserKinds : List VpiKind :=
  [.intVar, .realVar, .logicVar, .operation, .streamOp, .assignPatternOp] ++ typespecKinds

/-- **A streaming operator with no assignment above it dereferences `nullptr`.**  In every
tree of variables, their typespecs, operations, streaming operators and assignment patterns,
walked under a chain with no assignment -- as the initialiser of a variable of a module, a
function or a generate scope, which `visit_default_expr` walks above the variable's
parent -- every streaming operator looks for an assignment and finds none. -/
theorem streamOp_outside_assignment {frames : List (Option AstNodeType)} {o : VpiObj}
    (hk : ∀ k ∈ kinds o, k ∈ initialiserKinds) (hf : ∀ t ∈ assignTypes, some t ∉ frames) :
    ∀ l ∈ lookups frames o, l.1 = .streamOp → l.2 = none :=
  lookups_none (s := .streamOp) (by decide) hf o hk

/-- `int y = {<< {x}};` in a module. -/
def intStreamInit : VpiObj := .mk .intVar true [.mk .streamOp false [.mk .operation false []]]

theorem streamOp_outside_assignment_intStreamInit :
    (∀ k ∈ kinds intStreamInit, k ∈ initialiserKinds) ∧
      (∀ t ∈ assignTypes, some t ∉ [some .module, some .design, some .design]) ∧
      ∀ l ∈ lookups [some .module, some .design, some .design] intStreamInit,
        l.1 = .streamOp → l.2 = none :=
  ⟨by decide, by decide, streamOp_outside_assignment (by decide) (by decide)⟩

end UhdmPlugin
