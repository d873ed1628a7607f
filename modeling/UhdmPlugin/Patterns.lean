/-
# Assignment patterns of a parameter: `process_tagged_pattern` and
# `process_assignment_pattern_op`

Under a parameter or localparam, `process_assignment_pattern_op` builds an `AST_CONCAT`: the
operands that are not assignments in their order, then the values of the assignments -- the
tagged patterns -- ordered by a `std::map` from positions to values.  The position of an
assignment is that of the member of the parameter's type (`shared.param_types`) named by
its key, the text of its left-hand side after the first `.`; `std::map::insert` keeps the
first value at a position.

`process_tagged_pattern` builds those assignments.  With no assignment among its ancestors
-- the case of a parameter -- the left-hand side is an identifier named after the parameter
itself, and the member name goes into an `AST_DOT` child.  The key is then the parameter's
name for every member.

* `assignmentPatternParam_first`: under a parameter, whatever the members named and their
  order, the concatenation holds the other operands and the value of the first tagged
  pattern only.
* `assignmentPattern_drops_members`: for `localparam S p = '{a: 1, b: 2}` the concatenation
  is `{1}`, and for `'{b: 2, a: 1}` it is `{2}`.
* `paramTypes_run`: over any run of parameters, in any modules, `shared.param_types` holds
  for each bare name what the first parameter binding it gave.
* `assignmentPatternParam_after_plain`: when that first parameter is a plain parameter
  assignment, every later assignment pattern of the name with a tagged pattern among its
  operands dereferences `nullptr`; one with none is the concatenation of its operands.
-/
import UhdmPlugin.Ast

namespace UhdmPlugin

open AstNode

/-! ## 1. The code -/

/-- What the typespec of a tagged pattern names: a member (`vpiStringTypespec`), an index
(`vpiIntegerTypespec`), or neither. -/
inductive PatternKey
  | member (name : String)
  | index (i : Int)
  | other

/-- `process_tagged_pattern`: an assignment of the same type as the enclosing assignment
`assign` (an `AST_ASSIGN` when there is none), whose left-hand side is a copy of that
assignment's, or else an identifier named after the enclosing declaration `decl`, with the
member (unless it is `default`) as an `AST_DOT` child or the index as an `AST_RANGE` child;
its right-hand side is the pattern's value.  A missing declaration, or an enclosing
assignment with no left-hand side, is dereferenced. -/
def processTaggedPattern (assign : Option AstNode) (decl : Option String) (key : PatternKey)
    (value : AstNode) : Option AstNode :=
  let lhs : Option (AstNodeType × AstNode) := match assign with
    | some a => a.children.head?.map fun l => (a.type, l)
    | none => decl.map fun d => (.assign, identNode d)
  lhs.map fun (type, lhs) =>
    let lhs := match key with
      | .member f =>
        if f = "default" then lhs
        else { lhs with children := lhs.children ++ [{ AstNode.new .dot with str := f }] }
      | .index i =>
        { lhs with children := lhs.children ++ [{ AstNode.new .range with children := [mkconstInt i] }] }
      | .other => lhs
    { AstNode.new type with children := [lhs, value] }

/-- `key.substr(key.find('.') + 1)`: what follows the first `.`, or the whole text when there
is none (`npos + 1` is `0`). -/
def afterDot (s : String) : String :=
  match s.data.dropWhile (· ≠ '.') with
  | _ :: rest => String.mk rest
  | [] => s

/-- `std::map::insert` on a map kept sorted by key: a key already present keeps its value. -/
def mapInsert {α : Type} (k : Nat) (v : α) : List (Nat × α) → List (Nat × α)
  | [] => [(k, v)]
  | (k', v') :: rest =>
    if k < k' then (k, v) :: (k', v') :: rest
    else if k = k' then (k', v') :: rest
    else (k', v') :: mapInsert k v rest

/-- An operand of the pattern, into the plain operands and the `ordered_children` map.  Only
an assignment reads `param_type`, `shared.param_types[param]`, and dereferences it; its
position is that of the member its key names, or the number of members. -/
def patternOperand (paramType : Option AstNode) (acc : List AstNode × List (Nat × AstNode))
    (node : AstNode) : Option (List AstNode × List (Nat × AstNode)) :=
  if node.type = .assign ∨ node.type = .assignEq ∨ node.type = .assignLe then
    node.children[0]?.bind fun l => paramType.bind fun paramType =>
    node.children[1]?.map fun v =>
      (acc.1, mapInsert (paramType.children.findIdx (·.str = afterDot l.str)) v acc.2)
  else some (acc.1 ++ [node], acc.2)

/-- `process_assignment_pattern_op` under the parameter `param`: the `AST_CONCAT` of the
plain operands and then the values of `ordered_children` in the order of their positions. -/
def assignmentPatternParam (paramTypes : String → Option AstNode) (param : String)
    (operands : List AstNode) : Option AstNode :=
  (operands.foldlM (patternOperand (paramTypes param)) ([], [])).map fun (plain, ordered) =>
    { AstNode.new .concat with children := plain ++ ordered.map (·.2) }

/-! ## 2. Every tagged pattern of a parameter has the same key -/

theorem mapInsert_self {α : Type} (k : Nat) (v w : α) : mapInsert k w [(k, v)] = [(k, v)] := by
  simp [mapInsert]

theorem patternOperand_assign (T : AstNode) (acc : List AstNode × List (Nat × AstNode))
    (l w : AstNode) :
    patternOperand (some T) acc { AstNode.new .assign with children := [l, w] } =
      some (acc.1, mapInsert (T.children.findIdx (·.str = afterDot l.str)) w acc.2) := rfl

/-- A tagged pattern under the parameter `P` assigns `P`, whatever it names. -/
theorem processTaggedPattern_param (P : String) (key : PatternKey) (v : AstNode) :
    ∃ l, processTaggedPattern none (some P) key v =
      some { AstNode.new .assign with children := [l, v] } ∧ l.str = P := by
  cases key <;> simp only [processTaggedPattern, Option.map_some'] <;> (try split) <;>
    exact ⟨_, rfl, rfl⟩

/-- The tagged patterns of the parameter `P` all assign `P`. -/
theorem mapM_processTaggedPattern (P : String) : ∀ ps : List (PatternKey × AstNode), ∃ ns,
    (ps.mapM fun p => processTaggedPattern none (some P) p.1 p.2) = some ns ∧
      ∀ n ∈ ns, ∃ l w, n = { AstNode.new .assign with children := [l, w] } ∧ l.str = P
  | [] => ⟨[], rfl, by simp⟩
  | (key, w) :: ps => by
    obtain ⟨l, hl, hs⟩ := processTaggedPattern_param P key w
    obtain ⟨ns, hns, hall⟩ := mapM_processTaggedPattern P ps
    refine ⟨{ AstNode.new .assign with children := [l, w] } :: ns,
      by rw [List.mapM_cons, hl, hns]; rfl, ?_⟩
    rintro n (_ | ⟨_, hn⟩)
    · exact ⟨l, w, rfl, hs⟩
    · exact hall n hn

/-- Assignments to `P` after the first leave the map as the first one made it. -/
theorem foldlM_patternOperand_same {T v : AstNode} {P : String} :
    ∀ ns : List AstNode, (∀ n ∈ ns, ∃ l w, n = { AstNode.new .assign with children := [l, w] } ∧
      l.str = P) →
    ns.foldlM (patternOperand (some T)) ([], [(T.children.findIdx (·.str = afterDot P), v)]) =
      some ([], [(T.children.findIdx (·.str = afterDot P), v)])
  | [], _ => rfl
  | n :: ns, h => by
    obtain ⟨l, w, rfl, hl⟩ := h n (List.mem_cons_self _ _)
    rw [List.foldlM_cons, patternOperand_assign, hl, mapInsert_self, Option.bind_eq_bind,
      Option.some_bind]
    exact foldlM_patternOperand_same ns fun n hn => h n (List.mem_cons_of_mem _ hn)

/-- Under the parameter `P` of type `T`, the tagged patterns `(key, value)` build an
`AST_CONCAT` holding the value of the first one only, whatever the keys. -/
theorem assignmentPatternParam_first {types : String → Option AstNode} {P : String} {T : AstNode}
    (hT : types P = some T) (key : PatternKey) (v : AstNode) (rest : List (PatternKey × AstNode)) :
    (((key, v) :: rest).mapM fun p => processTaggedPattern none (some P) p.1 p.2).bind
        (assignmentPatternParam types P) =
      some { AstNode.new .concat with children := [v] } := by
  obtain ⟨l, hl, hs⟩ := processTaggedPattern_param P key v
  obtain ⟨ns, hns, hall⟩ := mapM_processTaggedPattern P rest
  simp only [List.mapM_cons, hl, hns, Option.pure_def, Option.bind_eq_bind, Option.some_bind,
    assignmentPatternParam, hT, List.foldlM_cons, patternOperand_assign, hs]
  rw [show mapInsert (T.children.findIdx (·.str = afterDot P)) v [] =
    [(T.children.findIdx (·.str = afterDot P), v)] from rfl, foldlM_patternOperand_same ns hall]
  rfl

/-! ## 3. Two members, one value -/

/-- `typedef struct packed { logic a; logic b; } S`, the type of the parameter `p`. -/
def structAB : AstNode :=
  { AstNode.new .struct with
    str := "\\S"
    children := [{ AstNode.new .structItem with str := "\\a" },
      { AstNode.new .structItem with str := "\\b" }] }

/-- `localparam S p = '{a: 1, b: 2}` gives the concatenation `{1}`, and `'{b: 2, a: 1}` gives
`{2}`: one value each, and not the same. -/
theorem assignmentPattern_drops_members :
    ([(PatternKey.member "a", mkconstInt 1), (.member "b", mkconstInt 2)].mapM fun p =>
        processTaggedPattern none (some "\\p") p.1 p.2).bind
      (assignmentPatternParam (fun x => if x = "\\p" then some structAB else none) "\\p") =
      some { AstNode.new .concat with children := [mkconstInt 1] } ∧
    ([(PatternKey.member "b", mkconstInt 2), (.member "a", mkconstInt 1)].mapM fun p =>
        processTaggedPattern none (some "\\p") p.1 p.2).bind
      (assignmentPatternParam (fun x => if x = "\\p" then some structAB else none) "\\p") =
      some { AstNode.new .concat with children := [mkconstInt 2] } :=
  ⟨assignmentPatternParam_first rfl _ _ _, assignmentPatternParam_first rfl _ _ _⟩

/-! ## 4. `shared.param_types` over a run

`shared.param_types` maps the bare name of a parameter -- `get_name` keeps what follows the
last `.` -- to its struct type, for every module of the design at once.
`process_parameter` inserts the type of a struct-typed parameter only when the name is
absent.  `process_param_assign`, once its left-hand side has been through
`process_parameter`, runs `param_types[name] = param_types[name]`, and `operator[]` stores
`nullptr` under a name that is absent.  So the first parameter to bind a name decides it for
the rest of the run, and a parameter assignment that is not of a struct type binds it to
`nullptr`. -/

/-- `shared.param_types`, newest binding first; `none` is a stored `nullptr`. -/
def ParamTypes := List (String × Option AstNode)

/-- `param_types.find(name)`: `none` when the name is absent. -/
def ParamTypes.find (pt : ParamTypes) (name : String) : Option (Option AstNode) :=
  (List.find? (·.1 = name) pt).map (·.2)

/-- `insert(make_pair(name, v))`, and `operator[]` with `nullptr`: only an absent name is
bound. -/
def ParamTypes.insertIfAbsent (pt : ParamTypes) (name : String) (v : Option AstNode) :
    ParamTypes :=
  if (pt.find name).isSome then pt else (name, v) :: pt

/-- One parameter the design lowers: its bare name, its struct type when its typespec is a
struct, and whether it is the left-hand side of a `vpiParamAssign`. -/
structure ParamEvent where
  name : String
  structType : Option AstNode
  assigned : Bool

/-- What lowering one parameter does to `shared.param_types`: `process_parameter`, then, for
the left-hand side of a parameter assignment, the `operator[]` of `process_param_assign`. -/
def paramTypesStep (pt : ParamTypes) (e : ParamEvent) : ParamTypes :=
  let pt := match e.structType with
    | some t => pt.insertIfAbsent e.name (some t)
    | none => pt
  if e.assigned then pt.insertIfAbsent e.name none else pt

/-- The parameter `e` binds `name`: it has that name, and a struct type or an assignment. -/
def ParamEvent.Binds (e : ParamEvent) (name : String) : Prop :=
  e.name = name ∧ (e.structType.isSome ∨ e.assigned)

instance (e : ParamEvent) (name : String) : Decidable (e.Binds name) :=
  inferInstanceAs (Decidable (_ ∧ _))

/-- What the first parameter that binds `name` binds it to. -/
def firstBinding (evs : List ParamEvent) (name : String) : Option (Option AstNode) :=
  (evs.find? fun e => e.Binds name).map (·.structType)

theorem find_insertIfAbsent (pt : ParamTypes) (name n : String) (v : Option AstNode) :
    (pt.insertIfAbsent name v).find n = (pt.find n).or (if name = n then some v else none) := by
  unfold ParamTypes.insertIfAbsent
  by_cases hn : name = n
  · subst hn
    cases h : pt.find name with
    | none =>
      simp only [h, Option.isSome_none, Bool.false_eq_true, if_false, Option.none_or, if_true]
      simp [ParamTypes.find]
    | some w => simp only [h, Option.isSome_some, if_true]; rfl
  · split <;> simp [ParamTypes.find, List.find?_cons, hn]

/-- One parameter: a name already bound stays bound as it was. -/
theorem find_paramTypesStep (pt : ParamTypes) (e : ParamEvent) (n : String) :
    (paramTypesStep pt e).find n =
      (pt.find n).or (if e.Binds n then some e.structType else none) := by
  rcases e with ⟨name, _ | t, _ | _⟩ <;> by_cases hn : name = n <;>
    simp [paramTypesStep, find_insertIfAbsent, ParamEvent.Binds, hn, Option.or_assoc]

theorem find_foldl_paramTypesStep (n : String) :
    ∀ (evs : List ParamEvent) (pt : ParamTypes),
      (evs.foldl paramTypesStep pt).find n = (pt.find n).or (firstBinding evs n)
  | [], pt => by simp [firstBinding]
  | e :: evs, pt => by
    rw [List.foldl_cons, find_foldl_paramTypesStep n evs, find_paramTypesStep, Option.or_assoc]
    by_cases he : e.Binds n <;> simp [firstBinding, List.find?_cons, he]

/-- **The first parameter to bind a name decides `param_types` for the whole run.**  After any
sequence of parameters, over any modules, the entry of a name is what the first parameter
that binds it gave: the struct type of a struct-typed parameter, or `nullptr` for a parameter
assignment of another type; a name no parameter binds is absent. -/
theorem paramTypes_run (evs : List ParamEvent) (n : String) :
    (evs.foldl paramTypesStep []).find n = firstBinding evs n := by
  simpa [ParamTypes.find] using find_foldl_paramTypesStep n evs []

/-- Operands with no assignment among them are kept in order, and `param_types` is not
read. -/
theorem foldlM_patternOperand_plain (T : Option AstNode) :
    ∀ (ops : List AstNode) (acc : List AstNode × List (Nat × AstNode)),
      (∀ o ∈ ops, ¬(o.type = .assign ∨ o.type = .assignEq ∨ o.type = .assignLe)) →
      ops.foldlM (patternOperand T) acc = some (acc.1 ++ ops, acc.2)
  | [], acc, _ => by simp
  | o :: ops, acc, h => by
    have ho := h o (List.mem_cons_self _ _)
    rw [List.foldlM_cons, patternOperand, if_neg ho, Option.bind_eq_bind, Option.some_bind,
      foldlM_patternOperand_plain T ops _ fun o' h' => h o' (List.mem_cons_of_mem _ h')]
    simp

/-- With `nullptr` for the parameter's type, the first assignment among the operands
dereferences it. -/
theorem foldlM_patternOperand_null :
    ∀ (ops : List AstNode) (acc : List AstNode × List (Nat × AstNode)),
      (∃ o ∈ ops, o.type = .assign ∨ o.type = .assignEq ∨ o.type = .assignLe) →
      ops.foldlM (patternOperand none) acc = none
  | [], _, ⟨_, ho, _⟩ => absurd ho (List.not_mem_nil _)
  | o :: ops, acc, ⟨o', ho', hty⟩ => by
    rw [List.foldlM_cons, Option.bind_eq_bind, Option.bind_eq_none]
    intro acc' hacc
    unfold patternOperand at hacc
    split_ifs at hacc with ho
    · cases o.children[0]? <;> simp at hacc
    · obtain rfl | hmem := List.mem_cons.1 ho'
      · exact absurd hty ho
      · exact foldlM_patternOperand_null ops acc' ⟨o', hmem, hty⟩

/-- **A plain parameter assignment hides every later struct type of its name.**  When the first
parameter to bind a name is a parameter assignment that is not of a struct type, an
assignment pattern of a parameter of that name, in any module lowered after, dereferences the
stored `nullptr` exactly when one of its operands is an assignment (a tagged pattern),
whatever struct types later parameters of that name have; a pattern with no assignment among
its operands is their concatenation. -/
theorem assignmentPatternParam_after_plain {evs : List ParamEvent} {P : String}
    (h : firstBinding evs P = some none) (operands : List AstNode) :
    assignmentPatternParam (fun n => ((evs.foldl paramTypesStep []).find n).join) P operands =
      if ∃ o ∈ operands, o.type = .assign ∨ o.type = .assignEq ∨ o.type = .assignLe then none
      else some { AstNode.new .concat with children := operands } := by
  have hP : ((evs.foldl paramTypesStep []).find P).join = none := by
    rw [find_foldl_paramTypesStep P evs [], h]; rfl
  unfold assignmentPatternParam
  beta_reduce
  split_ifs with hops
  · rw [hP, foldlM_patternOperand_null operands _ hops, Option.map_none']
  · push_neg at hops
    rw [foldlM_patternOperand_plain _ operands _ fun o ho => by simpa using hops o ho]
    simp

/-- `parameter int p = 1` in one module, then `parameter S p = ...` in another. -/
def plainThenStruct : List ParamEvent :=
  [⟨"\\p", none, true⟩, ⟨"\\p", some structAB, true⟩]

/-- `'{a: 1}` under the second `p`: the tagged pattern `p.a = 1`. -/
def taggedA : AstNode :=
  { AstNode.new .assign with
    children := [{ identNode "\\p" with children := [{ AstNode.new .dot with str := "a" }] },
      mkconstInt 1] }

theorem assignmentPatternParam_after_plain_p :
    firstBinding plainThenStruct "\\p" = some none ∧
      assignmentPatternParam
          (fun n => ((plainThenStruct.foldl paramTypesStep []).find n).join) "\\p" [taggedA] =
        none :=
  have h : firstBinding plainThenStruct "\\p" = some none := rfl
  ⟨h, (assignmentPatternParam_after_plain h [taggedA]).trans
    (if_pos ⟨taggedA, List.mem_singleton_self _, Or.inl rfl⟩)⟩

end UhdmPlugin
