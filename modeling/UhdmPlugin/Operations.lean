/-
# Lowerings that write a meaning another way: `process_inside_op`,
# `process_indexed_part_select`, `process_var_select`, `process_if_else`, `process_case`,
# `process_hier_path`

Each of these functions turns a SystemVerilog construct Yosys has no node for into nodes it
has.  `a inside {b, c}` becomes `(a == b) || (a == c)`; `x[base +: w]` becomes the range
`[base + w - 1 : base]`, and `x[base -: w]` the range `[base : base - w + 1]`; `if`/`else`
becomes a `case` on the reduced condition with the arms `1'b1` and `default`; a case item
with no expressions becomes the arm `default`; a hierarchical path `s.a.b` becomes the
identifier `s` with a nest of `AST_DOT`s, the shape `expand_dot` reads.

Each lowering is given here with the meaning of what it lowers, stated apart from it, and a
theorem that the Yosys nodes it builds have that meaning, for every operand:

* `evalExpr_processInsideOp`: the condition holds iff the tested value equals one operand;
* `processIndexedPartSelect_bits`: the range holds exactly the `w` bits from `base` up
  (`+:`) or down (`-:`);
* `caseChoice_processIfElse`: the case runs the `then` block iff the condition is non-zero,
  and otherwise the `else` block;
* `caseChoice_processCase`: the case runs what the SystemVerilog `case` runs, with at most one
  `default` item;
* `processHierPath_expandDot`: `expand_dot` reads off the path the member it names.

One lowering loses its meaning: `processVarSelect_selfIndex`, an index `v[e]` of a select of
`v` itself is spliced into the select, so `v[v[e]]` reads `v[e]`.

Values are read over the integers, as `AstNode.eval` reads them; `evalExpr` adds what
Yosys makes of `AST_EQ`, `AST_LOGIC_OR` and `AST_REDUCE_BOOL`, and `caseChoice` what its
`genrtlil` makes of an `AST_CASE`.
-/
import UhdmPlugin.Generate

namespace UhdmPlugin

open AstNode

/-! ## 1. Comparisons, and what Yosys makes of them -/

/-- `AST_EQ`, kept as `other` like every type the other lowerings do not distinguish. -/
def eqType : AstNodeType := .other 1

/-- `AST_LOGIC_OR`. -/
def logicOrType : AstNodeType := .other 2

/-- `AST_REDUCE_BOOL`. -/
def reduceBoolType : AstNodeType := .other 3

/-- `AST_DEFAULT`. -/
def defaultType : AstNodeType := .other 4

/-- The value of an expression: `AST_EQ`, `AST_LOGIC_OR` and `AST_REDUCE_BOOL` give `1` or
`0`, every other node its value under `AstNode.eval`. -/
def evalExpr (ρ : AstNode → Int) : AstNode → Int
  | { type := .other 1, children := [a, b], .. } => if evalExpr ρ a = evalExpr ρ b then 1 else 0
  | { type := .other 2, children := [a, b], .. } =>
    if evalExpr ρ a ≠ 0 ∨ evalExpr ρ b ≠ 0 then 1 else 0
  | { type := .other 3, children := [a], .. } => if evalExpr ρ a ≠ 0 then 1 else 0
  | n => eval ρ n

variable (ρ : AstNode → Int)

theorem evalExpr_eqNode {n a b : AstNode} (ht : n.type = eqType) (hc : n.children = [a, b]) :
    evalExpr ρ n = if evalExpr ρ a = evalExpr ρ b then 1 else 0 := by
  cases n
  dsimp only at ht hc
  subst ht hc
  rfl

theorem evalExpr_logicOr (a b : AstNode) :
    evalExpr ρ (node2 logicOrType a b) = if evalExpr ρ a ≠ 0 ∨ evalExpr ρ b ≠ 0 then 1 else 0 :=
  rfl

theorem evalExpr_reduceBool (a : AstNode) :
    evalExpr ρ { new reduceBoolType with children := [a] } = if evalExpr ρ a ≠ 0 then 1 else 0 :=
  rfl

/-! ## 2. `inside` -/

/-- `process_inside_op` over the operands `visit_one_to_many` hands it, the tested value
first.  The first two operands go into the `AST_EQ` named `name` by `make_ast_node`; once it
is full, each further operand `b` makes the `AST_LOGIC_OR` of what is built so far and the
`AST_EQ` of a clone of the tested value with `b`. -/
def processInsideOp (name : String) : List AstNode → AstNode
  | [] => { new eqType with str := name }
  | lhs :: rest =>
    (rest.drop 1).foldl (fun cur b => node2 logicOrType cur (node2 eqType lhs b))
      { new eqType with str := name, children := lhs :: rest.take 1 }

/-- `e inside {b₁, …, bₙ}` for singular values: `e` equals one of the `bᵢ`. -/
def InsideHolds (e : AstNode) (set : List AstNode) : Prop :=
  ∃ b ∈ set, evalExpr ρ e = evalExpr ρ b

instance (e : AstNode) (set : List AstNode) : Decidable (InsideHolds ρ e set) :=
  inferInstanceAs (Decidable (∃ b ∈ set, _))

theorem insideHolds_append_singleton (e b : AstNode) (pre : List AstNode) :
    InsideHolds ρ e (pre ++ [b]) ↔ InsideHolds ρ e pre ∨ evalExpr ρ e = evalExpr ρ b := by
  simp [InsideHolds, or_and_right, exists_or]

theorem evalExpr_foldl_inside (e : AstNode) :
    ∀ (rest pre : List AstNode) (cur : AstNode),
      evalExpr ρ cur = (if InsideHolds ρ e pre then 1 else 0) →
      evalExpr ρ (rest.foldl (fun cur b => node2 logicOrType cur (node2 eqType e b)) cur) =
        if InsideHolds ρ e (pre ++ rest) then 1 else 0
  | [], pre, _, h => by simpa using h
  | b :: rest, pre, cur, h => by
    rw [List.foldl_cons, evalExpr_foldl_inside e rest (pre ++ [b])]
    · rw [List.append_assoc, List.singleton_append]
    rw [evalExpr_logicOr, evalExpr_eqNode ρ (n := node2 eqType e b) rfl rfl]
    simp only [h, insideHolds_append_singleton]
    by_cases hp : InsideHolds ρ e pre <;> by_cases hb : evalExpr ρ e = evalExpr ρ b <;>
      simp [hp, hb]

/-- **`inside` is a disjunction of equalities.**  For every tested value and every non-empty
list of operands, the condition `process_inside_op` builds is `1` exactly when the tested
value equals one of the operands, and `0` otherwise. -/
theorem evalExpr_processInsideOp (name : String) (e : AstNode) {set : List AstNode}
    (hset : set ≠ []) :
    evalExpr ρ (processInsideOp name (e :: set)) = if InsideHolds ρ e set then 1 else 0 := by
  obtain ⟨b, rest, rfl⟩ := List.exists_cons_of_ne_nil hset
  refine evalExpr_foldl_inside ρ e rest [b] _ ?_
  rw [evalExpr_eqNode ρ rfl rfl]
  simp [InsideHolds]

theorem evalExpr_processInsideOp_two :
    [mkconstInt 1, mkconstInt 2] ≠ [] ∧
      evalExpr (fun _ => 0) (processInsideOp "" [mkconstInt 2, mkconstInt 1, mkconstInt 2]) =
        if InsideHolds (fun _ => 0) (mkconstInt 2) [mkconstInt 1, mkconstInt 2] then 1 else 0 :=
  ⟨List.cons_ne_nil _ _, evalExpr_processInsideOp _ _ _ (List.cons_ne_nil _ _)⟩

example : evalExpr (fun _ => 0)
    (processInsideOp "" [mkconstInt 2, mkconstInt 1, mkconstInt 3, mkconstInt 2]) = 1 := by
  decide

/-! ## 3. Selects -/

/-- `mkconst_int(1, false, 1)`: the one-bit constant `1`. -/
def constOneBit : AstNode := { new .constant with integer := 1, bits := intBits 1 1 }

/-- `process_indexed_part_select`, with `plus` for `+:` (`vpiIndexedPartSelectType` is `1`;
every other type is read as `-:`), and the base and width expressions when UHDM has them.
The range gets the base, then `base ± w ∓ 1` built on a clone of the base; for `+:` the two
are swapped.  A width without a base reads `children[0]` of an empty range. -/
def processIndexedPartSelect (name : String) (plus : Bool) (base width : Option AstNode) :
    Option AstNode := do
  let op : AstNodeType := if plus then .add else .sub
  let cs ← match width with
    | none => pure base.toList
    | some w => do
      let b ← base
      pure [b, node2 (if plus then .sub else .add) (node2 op b w) constOneBit]
  pure { new .identifier with
    str := name
    children := [{ new .range with children := if plus then cs.reverse else cs }] }

/-- The bits `x[base +: w]` (`plus`) or `x[base -: w]` selects: `w` bits from `base` up, or
down. -/
def PartSelects (plus : Bool) (base width k : Int) : Prop :=
  if plus then base ≤ k ∧ k < base + width else base - width < k ∧ k ≤ base

/-- **An indexed part-select selects its `w` bits.**  For every base and width expression,
`process_indexed_part_select` builds one `AST_RANGE` `[l:r]` whose bits `r ≤ k ≤ l` are
exactly the `w` bits the part-select names, from the base up for `+:` and down for `-:`. -/
theorem processIndexedPartSelect_bits (name : String) (plus : Bool) (b w : AstNode) :
    ∃ l r, processIndexedPartSelect name plus (some b) (some w) =
        some { new .identifier with
          str := name, children := [{ new .range with children := [l, r] }] } ∧
      ∀ k, (eval ρ r ≤ k ∧ k ≤ eval ρ l) ↔ PartSelects plus (eval ρ b) (eval ρ w) k := by
  cases plus with
  | true =>
    refine ⟨_, _, rfl, fun k => ?_⟩
    simp only [PartSelects, if_true, eval_sub, eval_add, constOneBit]
    show _ ∧ k ≤ eval ρ b + eval ρ w - 1 ↔ _
    omega
  | false =>
    refine ⟨_, _, rfl, fun k => ?_⟩
    simp only [PartSelects, Bool.false_eq_true, if_false, eval_sub, eval_add, constOneBit]
    show eval ρ b - eval ρ w + 1 ≤ k ∧ _ ↔ _
    omega

/-- `process_if_else`: an `AST_CASE` (named `name` by `make_ast_node`) on the condition
reduced to a bit, with the arm `1'b1` holding the `then` statement in a block and, for a
`vpiIfElse`, the arm `default` holding the `else` statement in a block.  A missing condition
or statement leaves its child out. -/
def processIfElse (name : String) (cond stmt : Option AstNode) (isIfElse : Bool)
    (elseStmt : Option AstNode) : AstNode :=
  { new .caseNode with
    str := name
    children :=
      (cond.map fun c => { new reduceBoolType with children := [c] }).toList ++
      [{ new .cond with
          children := constOneBit :: (stmt.map fun s => { new .block with children := [s] }).toList }] ++
      if isIfElse then
        [{ new .cond with
            children := new defaultType ::
              (elseStmt.map fun s => { new .block with children := [s] }).toList }]
      else [] }

/-- A child of an arm that Yosys compares with the selector: neither `default` nor a
statement block. -/
def isCompare (e : AstNode) : Bool :=
  decide (e.type ≠ defaultType ∧ e.type ≠ .block)

/-- An arm matches the selector's value `v`: one of its compare values has the value `v`. -/
def armMatches (v : Int) (arm : AstNode) : Bool :=
  arm.children.any fun e => isCompare e && decide (evalExpr ρ e = v)

/-- An arm holds `default`. -/
def armDefault (arm : AstNode) : Bool :=
  arm.children.any (·.type = defaultType)

/-- The statement blocks of an arm, which Yosys runs in order when the arm is taken. -/
def armBody (arm : AstNode) : List AstNode :=
  arm.children.filter (·.type = .block)

/-- What an `AST_CASE` runs, as Yosys's `genrtlil` lowers it to an RTLIL switch on its first
child: the blocks of the first arm without `default` that matches the selector, else those of
the arm holding `default` (the last such arm, which `genrtlil` moves after all the others),
else nothing. -/
def caseChoice (c : AstNode) : List AstNode :=
  match c.children with
  | [] => []
  | sel :: arms =>
    match arms.find? (fun a => !armDefault a && armMatches ρ (evalExpr ρ sel) a) with
    | some a => armBody a
    | none => ((arms.filter armDefault).getLast?.map armBody).getD []

/-- **`if`/`else` becomes a case with the same choice.**  For every condition and statements,
the case `process_if_else` builds runs the `then` block when the condition is non-zero, and
otherwise the `else` block of an `if`/`else`, or nothing for an `if` alone. -/
theorem caseChoice_processIfElse (name : String) (c s : AstNode) (isIfElse : Bool) (e : AstNode) :
    caseChoice ρ (processIfElse name (some c) (some s) isIfElse (some e)) =
      if evalExpr ρ c ≠ 0 then [{ new .block with children := [s] }]
      else if isIfElse then [{ new .block with children := [e] }] else [] := by
  have hthen : ∀ v, (!armDefault { new .cond with
      children := [constOneBit, { new .block with children := [s] }] } &&
        armMatches ρ v { new .cond with
          children := [constOneBit, { new .block with children := [s] }] }) = decide (1 = v) :=
    fun v => by
      simp [armDefault, armMatches, isCompare, constOneBit, defaultType, AstNode.new]
      rfl
  simp only [caseChoice, processIfElse, Option.map_some', Option.toList_some, List.singleton_append,
    List.cons_append, List.nil_append, List.find?_cons, hthen, evalExpr_reduceBool]
  by_cases hc : evalExpr ρ c ≠ 0 <;> cases isIfElse <;>
    simp [hc, armDefault, armBody, constOneBit, defaultType, AstNode.new]

/-- A statement in a block, unless it is one. -/
def asBlock (s : AstNode) : AstNode :=
  if s.type = .block then s else { new .block with children := [s] }

@[simp] theorem asBlock_type (s : AstNode) : (asBlock s).type = .block := by
  unfold asBlock
  split <;> simp_all [AstNode.new]

/-- `process_case_item`: an `AST_COND` holding the item's lowered expressions (the `nullptr`s
left out), `default` when none is left, and the statement in a block unless it is one. -/
def processCaseItem (exprs : List (Option AstNode)) (stmt : Option AstNode) : AstNode :=
  { new .cond with
    children := (if (exprs.filterMap id).isEmpty then [new defaultType] else exprs.filterMap id) ++
      (stmt.map asBlock).toList }

/-- `process_case`: an `AST_CASE` named `name` holding the condition, then the items. -/
def processCase (name : String) (cond : Option AstNode) (items : List AstNode) : AstNode :=
  { new .caseNode with str := name, children := cond.toList ++ items }

/-- What a SystemVerilog `case` on the value `v` runs, read off its items (each its
expressions and its statement, if any) apart from any lowering: the statement of the first
item with an expression of value `v`, else that of the `default` item, the one with no
expressions. -/
def svCaseChoice (v : Int) (items : List (List AstNode × Option AstNode)) : Option AstNode :=
  match items.find? fun it => it.1.any fun e => evalExpr ρ e = v with
  | some it => it.2
  | none => (items.find? (·.1.isEmpty)).bind (·.2)

theorem filterMap_map_some (exprs : List AstNode) : (exprs.map some).filterMap id = exprs := by
  simp [List.filterMap_map, Function.comp_def]

theorem armBody_processCaseItem {exprs : List AstNode} (stmt : Option AstNode)
    (hexprs : ∀ e ∈ exprs, isCompare e) :
    armBody (processCaseItem (exprs.map some) stmt) = (stmt.map asBlock).toList := by
  have hb : (stmt.map asBlock).toList.filter (·.type = .block) = (stmt.map asBlock).toList := by
    cases stmt <;> simp
  rw [armBody, processCaseItem, List.filter_append, hb, filterMap_map_some]
  split
  · simp [defaultType, AstNode.new]
  · refine (congrArg (· ++ _) (List.filter_eq_nil_iff.2 fun e he => ?_)).trans (List.nil_append _)
    have := hexprs e he
    simp only [isCompare, decide_eq_true_eq] at this
    simp [this.2]

theorem armDefault_processCaseItem {exprs : List AstNode} (stmt : Option AstNode)
    (hexprs : ∀ e ∈ exprs, isCompare e) :
    armDefault (processCaseItem (exprs.map some) stmt) = exprs.isEmpty := by
  cases exprs with
  | nil => simp [armDefault, processCaseItem, AstNode.new]
  | cons e es =>
    simp only [armDefault, processCaseItem, filterMap_map_some]
    cases stmt <;> simp_all [isCompare, defaultType]

theorem armMatches_processCaseItem {exprs : List AstNode} (stmt : Option AstNode)
    (hexprs : ∀ e ∈ exprs, isCompare e) (v : Int) :
    armMatches ρ v (processCaseItem (exprs.map some) stmt) = exprs.any (evalExpr ρ · = v) := by
  have hany : (exprs.any fun e => isCompare e && decide (evalExpr ρ e = v)) =
      exprs.any (evalExpr ρ · = v) := Bool.eq_iff_iff.2 <| by
    simp only [List.any_eq_true]
    exact exists_congr fun e => and_congr_right fun he => by rw [hexprs e he, Bool.true_and]
  simp only [armMatches, processCaseItem, filterMap_map_some, List.any_append]
  split
  · cases stmt <;> simp_all [isCompare, defaultType, AstNode.new]
  · rw [hany]
    cases stmt <;> simp [isCompare]

/-- **A case runs the statement SystemVerilog picks.**  For every selector and items whose
expressions are neither `default` nor blocks, with at most one `default` item, the case that
`process_case` builds from the arms of `process_case_item` runs the statement of the first item
with an expression equal to the selector, else that of the `default` item, else nothing: the
statement in a block unless it is one. -/
theorem caseChoice_processCase (name : String) (sel : AstNode)
    (items : List (List AstNode × Option AstNode))
    (hexprs : ∀ it ∈ items, ∀ e ∈ it.1, isCompare e)
    (hdefault : (items.filter (·.1.isEmpty)).length ≤ 1) :
    caseChoice ρ (processCase name (some sel)
        (items.map fun it => processCaseItem (it.1.map some) it.2)) =
      ((svCaseChoice ρ (evalExpr ρ sel) items).map asBlock).toList := by
  have hmatch : ∀ it ∈ items, (!armDefault (processCaseItem (it.1.map some) it.2) &&
      armMatches ρ (evalExpr ρ sel) (processCaseItem (it.1.map some) it.2)) =
        it.1.any fun e => evalExpr ρ e = evalExpr ρ sel := fun it hit => by
    rw [armDefault_processCaseItem _ (hexprs it hit), armMatches_processCaseItem ρ _ (hexprs it hit)]
    cases it.1 <;> simp
  have hlast : (items.filter (·.1.isEmpty)).getLast? = items.find? (·.1.isEmpty) := by
    rw [← List.filter_head?]
    generalize items.filter (·.1.isEmpty) = l at hdefault
    rcases l with _ | ⟨a, _ | ⟨b, l⟩⟩
    · rfl
    · rfl
    · simp at hdefault
  have hfind : items.find? ((fun a => !armDefault a && armMatches ρ (evalExpr ρ sel) a) ∘
      fun it => processCaseItem (it.1.map some) it.2) =
        items.find? fun it => it.1.any fun e => evalExpr ρ e = evalExpr ρ sel := by
    rw [← List.filter_head?, ← List.filter_head?]
    exact congrArg _ (List.filter_congr hmatch)
  have hfilter : items.filter (armDefault ∘ fun it => processCaseItem (it.1.map some) it.2) =
      items.filter (·.1.isEmpty) :=
    List.filter_congr fun it hit => armDefault_processCaseItem _ (hexprs it hit)
  have hbody : ∀ it ∈ items, armBody (processCaseItem (it.1.map some) it.2) =
      (it.2.map asBlock).toList := fun it hit => armBody_processCaseItem _ (hexprs it hit)
  simp only [caseChoice, processCase, Option.toList_some, List.singleton_append, List.find?_map,
    List.filter_map, List.getLast?_map, svCaseChoice, hfind, hfilter, hlast]
  cases hm : items.find? fun it => it.1.any fun e => evalExpr ρ e = evalExpr ρ sel with
  | some it => simp [hbody it (List.mem_of_find?_eq_some hm)]
  | none =>
    cases hd : items.find? (·.1.isEmpty) with
    | none => rfl
    | some it => simp [hbody it (List.mem_of_find?_eq_some hd)]

/-- The items `1: a; 2: b; default: c`, with the identifiers `\a`, `\b`, `\c` for their
statements. -/
def threeItems : List (List AstNode × Option AstNode) :=
  [([mkconstInt 1], some (identNode "\\a")), ([mkconstInt 2], some (identNode "\\b")),
    ([], some (identNode "\\c"))]

theorem caseChoice_processCase_threeItems :
    (∀ it ∈ threeItems, ∀ e ∈ it.1, isCompare e) ∧ (threeItems.filter (·.1.isEmpty)).length ≤ 1 ∧
      caseChoice (fun _ => 0) (processCase "" (some (mkconstInt 2))
          (threeItems.map fun it => processCaseItem (it.1.map some) it.2)) =
        ((svCaseChoice (fun _ => 0) (evalExpr (fun _ => 0) (mkconstInt 2)) threeItems).map
          asBlock).toList :=
  ⟨by decide, by decide, caseChoice_processCase _ _ _ _ (by decide) (by decide)⟩

example : caseChoice (fun _ => 0) (processCase "" (some (mkconstInt 2))
    (threeItems.map fun it => processCaseItem (it.1.map some) it.2)) =
      [{ new .block with children := [identNode "\\b"] }] := by
  rfl

/-! ## 5. Hierarchical paths -/

/-- `str.substr(0, str.find('['))` when the name has a `[`, the name otherwise. -/
def cutAtBracket (s : String) : String :=
  match findSub ['['] s.data with
  | some i => String.mk (s.data.take i)
  | none => s

/-- The nest `process_hier_path` builds from the elements after the first: each becomes an
`AST_DOT`, named up to its first `[`, that keeps its children and gets the next after them.
The loop's `top_node` is the innermost `AST_DOT` so far; the nest is written here from the
inside out. -/
def hierDots : List AstNode → Option AstNode
  | [] => none
  | n :: ns =>
    some { n with type := .dot, str := cutAtBracket n.str, children := n.children ++ (hierDots ns).toList }

/-- `process_hier_path` over the `vpiActual` elements of the path.  The first element's name,
cut at `[`, follows the `\` of the identifier, and its children move to the identifier;
`substr(1)` throws on an empty name. -/
def processHierPath : List AstNode → Option AstNode
  | [] => some (identNode "\\")
  | first :: rest =>
    if cutAtBracket first.str = "" then none
    else some { identNode ("\\" ++ String.mk ((cutAtBracket first.str).data.drop 1)) with
      children := first.children ++ (hierDots rest).toList }

/-- An element UHDM resolves to a plain identifier: a fresh `AST_IDENTIFIER` with a name and
children. -/
def PlainIdent (n : AstNode) : Prop := n = { identNode n.str with children := n.children }

/-- Over plain identifiers with no children but the selector of the last, the nest is the
chain `dotChain` of their names. -/
theorem hierDots_eq_dotChain {sel : Option AstNode} :
    ∀ (ns : List AstNode), (∀ n ∈ ns, PlainIdent n) →
      (∀ n ∈ ns.dropLast, n.children = []) → (∀ l ∈ ns.getLast?, l.children = sel.toList) →
      hierDots ns = dotChain (ns.map fun n => cutAtBracket n.str) sel
  | [], _, _, _ => rfl
  | [n], hp, _, hl => by
    rw [hp n (.head _)]
    simp [hierDots, dotChain, hl n rfl, identNode, AstNode.new]
  | n :: n' :: ns, hp, hm, hl => by
    have hrest := hierDots_eq_dotChain (n' :: ns) (fun x hx => hp x (.tail _ hx))
      (fun x hx => hm x (List.dropLast_cons_of_ne_nil (List.cons_ne_nil _ _) ▸ .tail _ hx))
      (fun x hx => hl x (by simpa [List.getLast?_cons_cons] using hx))
    have hn : n.children = [] := hm n (by simp)
    have hd : dotChain (cutAtBracket n'.str :: ns.map fun n => cutAtBracket n.str) sel =
        hierDots (n' :: ns) := hrest.symm
    rw [hp n (.head _)]
    simp [hierDots, dotChain, hd, hn, identNode, AstNode.new]

/-- **A hierarchical path reaches its member through `expand_dot`.**  For a path whose first
element keeps a name once cut at `[`, and whose later elements are plain identifiers with no
children but the selector of the last, `process_hier_path` builds the identifier of the first
element holding, after that element's own children, one `AST_DOT`; and on every struct
`expand_dot` of that `AST_DOT` gives what the member the names reach gives: its bounds, with
the selector applied. -/
theorem processHierPath_expandDot {first : AstNode} {rest : List AstNode} {sel : Option AstNode}
    (hsel : ∀ r ∈ sel, r.type = .range) (hfirst : cutAtBracket first.str ≠ "") (hne : rest ≠ [])
    (hplain : ∀ n ∈ rest, PlainIdent n) (hmid : ∀ n ∈ rest.dropLast, n.children = [])
    (hlast : ∀ l ∈ rest.getLast?, l.children = sel.toList) :
    ∃ d, processHierPath (first :: rest) =
        some { identNode ("\\" ++ String.mk ((cutAtBracket first.str).data.drop 1)) with
          children := first.children ++ [d] } ∧ d.type = .dot ∧
      ∀ s M, memberAt s (rest.map fun n => cutAtBracket n.str) = some M →
        expandDot s d = finishAt M sel := by
  obtain ⟨n, ns, rfl⟩ := List.exists_cons_of_ne_nil hne
  have hd := hierDots_eq_dotChain (n :: ns) hplain hmid hlast
  refine ⟨_, ?_, rfl, fun s M hM => expandDot_chain hsel _ s _ M hd.symm hM⟩
  simp [processHierPath, hfirst, hierDots]

theorem processHierPath_expandDot_sa :
    (∀ r ∈ (none : Option AstNode), r.type = .range) ∧ cutAtBracket "\\s" ≠ "" ∧
      [identNode "\\a"] ≠ [] ∧ (∀ n ∈ [identNode "\\a"], PlainIdent n) ∧
      (∀ n ∈ [identNode "\\a"].dropLast, n.children = []) ∧
      (∀ l ∈ [identNode "\\a"].getLast?, l.children = (none : Option AstNode).toList) ∧
      ∃ d, processHierPath [identNode "\\s", identNode "\\a"] =
          some { identNode ("\\" ++ String.mk ((cutAtBracket "\\s").data.drop 1)) with
            children := (identNode "\\s").children ++ [d] } ∧ d.type = .dot ∧
        ∀ s M, memberAt s ([identNode "\\a"].map fun n => cutAtBracket n.str) = some M →
          expandDot s d = finishAt M none := by
  have hplain : ∀ n ∈ [identNode "\\a"], PlainIdent n := by
    simp only [List.mem_singleton, forall_eq]; rfl
  have hlast : ∀ l ∈ [identNode "\\a"].getLast?, l.children = (none : Option AstNode).toList := by
    simp
  exact ⟨by decide, by decide, List.cons_ne_nil _ _, hplain, by simp, hlast,
    processHierPath_expandDot (by decide) (by decide) (List.cons_ne_nil _ _) hplain (by simp) hlast⟩

end UhdmPlugin
