/-
# The streaming operator: `process_stream_op`

`process_stream_op` lowers `lhs = {<< s {x}}` to a counted loop.  It declares a loop counter
`\loopN::i` (a `reg signed [31:0]`) and a temporary `\loopN::temp` as wide as `$bits(lhs)`,
appends `temp = x` to the enclosing block, and then the loop

    for (i = 0; i <= $bits(lhs) - s; i = i + s)
      lhs[($bits(lhs) - 1 - i) + 0 : (($bits(lhs) - 1 - i) + 1) - s] = temp[(i + s) - 1 : i + 0];

where `s` is the first constant operand, or `1` when there is none.

The meaning of the emitted statements is given by `exec`, an interpreter of the statements
the lowering emits -- blocking assignments to an integer variable, to a whole vector and
to a part-select, blocks, and `for` loops -- with explicit fuel.  Integer expressions are
evaluated over the integers: every width here stays far below `2 ^ 31`.

* `exec_streamOp`: for every target width `N`, slice size `s ≥ 1` and value, enough fuel
  runs the statements to the end, and the target is then `afterSlices` after `N / s`
  iterations: iteration `k` copies `temp[k*s + s - 1 : k*s]` to the `s` bits below bit
  `N - k*s`; by `afterSlices_below`, the `N % s` low bits of the target are never written.
* `afterSlices_eq_stream`: when `s` divides `N` and `x` is `N` bits wide, that is the
  right-to-left stream of `x`.
* `streamOp_stream`: so the lowering streams correctly when `s` divides `N` and `x` is `N`
  bits wide, and never writes the `N % s` low bits of the target.
* `streamOp_misplaces_tail`: for `N = 4`, `s = 2` and the 3-bit `x = 3'b111`, the statements
  give `4'b1101`; the stream, padded on the right, is `4'b1110`.
-/
import Mathlib.Data.List.Range
import UhdmPlugin.Ast

namespace UhdmPlugin

open AstNode

/-! ## 1. The code -/

/-- A node with one child. -/
def node1 (type : AstNodeType) (a : AstNode) : AstNode := { AstNode.new type with children := [a] }

/-- `$bits(target)`. -/
def bitsCall (target : AstNode) : AstNode := { node1 .fcall target with str := "\\$bits" }

/-- The visit of `vpiOperand`: the first constant is the slice size, every other operand goes
into `temp_assign`. -/
def splitSlice : List AstNode → Option AstNode × List AstNode
  | [] => (none, [])
  | n :: ns =>
    if n.type = .constant then (some n, ns)
    else ((splitSlice ns).1, n :: (splitSlice ns).2)

/-- `\loopN::i`. -/
def counterName (loopId : Nat) : String := "\\loop" ++ toString loopId ++ "::i"

/-- `\loopN::temp`. -/
def tempName (loopId : Nat) : String := "\\loop" ++ toString loopId ++ "::temp"

/-- The assignment in the loop's block:
`target[(bits - 1 - i) + 0 : ((bits - 1 - i) + 1) - s] = temp[(i + s) - 1 : i + 0]`. -/
def streamAssign (target counter temp slice bits : AstNode) : AstNode :=
  let lhsSelfsz := node1 .selfsz (node2 .sub (node2 .sub bits (mkconstInt 1)) counter)
  let rhsSelfsz := node1 .selfsz counter
  node2 .assignEq
    { target with children := target.children ++
      [node2 .range (node2 .add lhsSelfsz (mkconstInt 0))
        (node2 .sub (node2 .add lhsSelfsz (mkconstInt 1)) slice)] }
    { temp with children :=
      [node2 .range (node2 .sub (node2 .add rhsSelfsz slice) (mkconstInt 1))
        (node2 .add rhsSelfsz (mkconstInt 0))] }

/-- `cond_stmt`: `i <= bits - s`. -/
def streamCond (counter slice bits : AstNode) : AstNode := node2 .le counter (node2 .sub bits slice)

/-- `inc_stmt`: `i = i + s`. -/
def streamInc (counter slice : AstNode) : AstNode :=
  node2 .assignEq counter (node2 .add counter slice)

/-- The loop's block, holding the assignment. -/
def streamBody (tag : String) (assign : AstNode) : AstNode :=
  { node1 .block assign with str := "\\stream_op_block" ++ tag }

/-- The `AST_FOR` node: `i = 0`, the condition, the increment, and the block. -/
def streamLoop (tag : String) (counter slice bits assign : AstNode) : AstNode :=
  { AstNode.new .forLoop with
    str := "$loop" ++ tag
    children := [node2 .assignEq counter (mkconstInt 0), streamCond counter slice bits,
      streamInc counter slice, streamBody tag assign] }

/-- `process_stream_op` for the assignment whose left-hand side is `lhs`, with the operands
of the streaming operator: the declarations it adds to the module (a wire on the left-hand
side is declared again, and the assignment then targets its name) and the statements it
appends to the block, `temp = x` and a block holding the loop. -/
def streamOp (loopId : Nat) (lhs : AstNode) (operands : List AstNode) :
    List AstNode × List AstNode :=
  let tag := toString loopId
  let counterVar : AstNode := { AstNode.new .wire with
    str := counterName loopId, children := [node2 .range (mkconstInt 31) (mkconstInt 0)] }
  let counter := identNode (counterName loopId)
  let target : AstNode :=
    if lhs.type = .wire then { lhs with type := .identifier, children := [] } else lhs
  let bits := bitsCall target
  let tempVar : AstNode :=
    { (if lhs.type = .wire then lhs
       else node1 .wire (node2 .range (node2 .sub bits (mkconstInt 1)) (mkconstInt 0))) with
      str := tempName loopId }
  let temp := identNode (tempName loopId)
  let slice := (splitSlice operands).1.getD (mkconstInt 1)
  ((if lhs.type = .wire then [lhs] else []) ++ [counterVar, tempVar],
    [{ AstNode.new .assignEq with children := temp :: (splitSlice operands).2 },
      node1 .block (streamLoop tag counter slice bits (streamAssign target counter temp slice bits))])

/-! ## 2. What the statements do -/

/-- The variables the statements read and write: integer variables (the loop counter), bit
vectors, and each vector's declared width. -/
structure Machine where
  ints : String → Option Int
  vecs : String → Nat → Bool
  widths : String → Nat

namespace Machine

def setInt (m : Machine) (x : String) (v : Int) : Machine :=
  { m with ints := Function.update m.ints x (some v) }

def setVec (m : Machine) (x : String) (f : Nat → Bool) : Machine :=
  { m with vecs := Function.update m.vecs x f }

@[simp] theorem setInt_ints (m : Machine) (x : String) (v : Int) :
    (m.setInt x v).ints = Function.update m.ints x (some v) := rfl

@[simp] theorem setInt_vecs (m : Machine) (x : String) (v : Int) :
    (m.setInt x v).vecs = m.vecs := rfl

@[simp] theorem setInt_widths (m : Machine) (x : String) (v : Int) :
    (m.setInt x v).widths = m.widths := rfl

@[simp] theorem setVec_ints (m : Machine) (x : String) (f : Nat → Bool) :
    (m.setVec x f).ints = m.ints := rfl

@[simp] theorem setVec_vecs (m : Machine) (x : String) (f : Nat → Bool) :
    (m.setVec x f).vecs = Function.update m.vecs x f := rfl

@[simp] theorem setVec_widths (m : Machine) (x : String) (f : Nat → Bool) :
    (m.setVec x f).widths = m.widths := rfl

end Machine

/-- An integer expression: constants, the integer variables, `$bits` of a vector, `+`, `-`,
`<=` (`1` or `0`) and `AST_SELFSZ`. -/
def evalInt (m : Machine) : AstNode → Option Int
  | n@{ type := .constant, .. } => some n.integer
  | n@{ type := .identifier, children := [], .. } => m.ints n.str
  | n@{ type := .fcall, children := [v@{ type := .identifier, children := [], .. }], .. } =>
    if n.str = "\\$bits" then some (m.widths v.str : Int) else none
  | { type := .selfsz, children := [a], .. } => evalInt m a
  | { type := .add, children := [a, b], .. } =>
    (evalInt m a).bind fun x => (evalInt m b).map (x + ·)
  | { type := .sub, children := [a, b], .. } =>
    (evalInt m a).bind fun x => (evalInt m b).map (x - ·)
  | { type := .le, children := [a, b], .. } =>
    (evalInt m a).bind fun x => (evalInt m b).map fun y => if x ≤ y then 1 else 0
  | _ => none

section EvalInt

variable (m : Machine)

@[simp] theorem evalInt_mkconstInt (v : Int) : evalInt m (mkconstInt v) = some v := rfl

@[simp] theorem evalInt_identNode (x : String) : evalInt m (identNode x) = m.ints x := rfl

@[simp] theorem evalInt_bitsCall (x : String) :
    evalInt m (bitsCall (identNode x)) = some (m.widths x : Int) := rfl

@[simp] theorem evalInt_selfsz (a : AstNode) : evalInt m (node1 .selfsz a) = evalInt m a := rfl

@[simp] theorem evalInt_add (a b : AstNode) :
    evalInt m (node2 .add a b) = (evalInt m a).bind fun x => (evalInt m b).map (x + ·) := rfl

@[simp] theorem evalInt_sub (a b : AstNode) :
    evalInt m (node2 .sub a b) = (evalInt m a).bind fun x => (evalInt m b).map (x - ·) := rfl

@[simp] theorem evalInt_le (a b : AstNode) :
    evalInt m (node2 .le a b) =
      (evalInt m a).bind fun x => (evalInt m b).map fun y => if x ≤ y then 1 else 0 := rfl

theorem evalInt_of_constant {c : AstNode} (h : c.type = .constant) :
    evalInt m c = some c.integer := by
  obtain ⟨t, _⟩ := c
  subst h
  rfl

end EvalInt

namespace Machine

/-- `l = r` for a target with no selector: an integer variable takes the value of `r`; a
vector the bits of the vector `r` names, zero-extended. -/
def assignWhole (m : Machine) (l : String) (r : AstNode) : Option Machine :=
  match m.ints l with
  | some _ => (evalInt m r).map (m.setInt l)
  | none =>
    if r.type = .identifier ∧ r.children.isEmpty ∧ (m.ints r.str).isNone then
      some (m.setVec l fun j => decide (j < m.widths r.str) && m.vecs r.str j)
    else none

/-- `l[hi:lo] = r[hi':lo']`, both part-selects in range and of one width: bit `lo + t` of
`l` takes bit `lo' + t` of `r`.  A part-select out of range is not modelled. -/
def assignSlice (m : Machine) (l : String) (hi lo : Int) (r : String) (hi' lo' : Int) :
    Option Machine :=
  if 0 ≤ lo ∧ lo ≤ hi ∧ hi < m.widths l ∧ 0 ≤ lo' ∧ hi' < m.widths r ∧ hi - lo = hi' - lo' then
    some (m.setVec l fun j =>
      if lo ≤ j ∧ j ≤ hi then m.vecs r (j + lo'.toNat - lo.toNat) else m.vecs l j)
  else none

/-- A blocking assignment `l = r`. -/
def assign (m : Machine) : AstNode → AstNode → Option Machine
  | { type := .identifier, str := x, children := [], .. }, r => m.assignWhole x r
  | { type := .identifier, str := x,
      children := [{ type := .range, children := [hi, lo], .. }], .. },
    { type := .identifier, str := y,
      children := [{ type := .range, children := [hi', lo'], .. }], .. } =>
    (evalInt m hi).bind fun hi => (evalInt m lo).bind fun lo =>
    (evalInt m hi').bind fun hi' => (evalInt m lo').bind fun lo' =>
      m.assignSlice x hi lo y hi' lo'
  | _, _ => none

end Machine

/-- The iterations of a `for` loop: while the condition is not `0`, the body and then the
increment, for at most `fuel` iterations. -/
def loopFor (run : Machine → AstNode → Option Machine) (cond inc body : AstNode) :
    Nat → Machine → Option Machine
  | 0, _ => none
  | fuel + 1, m =>
    (evalInt m cond).bind fun c =>
      if c = 0 then some m
      else (run m body).bind fun m => (run m inc).bind (loopFor run cond inc body fuel)

/-- A statement, with `fuel` bounding the nesting and the iterations of each loop. -/
def exec : Nat → Machine → AstNode → Option Machine
  | 0, _, _ => none
  | fuel + 1, m, n =>
    match n.type, n.children with
    | .assignEq, [l, r] => m.assign l r
    | .block, cs => cs.foldlM (exec fuel) m
    | .forLoop, [init, cond, inc, body] =>
      (exec fuel m init).bind (loopFor (exec fuel) cond inc body fuel)
    | _, _ => none

theorem Machine.assign_identNode (m : Machine) (x : String) (r : AstNode) :
    m.assign (identNode x) r = m.assignWhole x r := rfl

theorem Machine.assign_range (m : Machine) {l r hi lo hi' lo' : AstNode}
    (hl : l.type = .identifier) (hlc : l.children = [node2 .range hi lo])
    (hr : r.type = .identifier) (hrc : r.children = [node2 .range hi' lo']) :
    m.assign l r =
      (evalInt m hi).bind fun hi => (evalInt m lo).bind fun lo =>
      (evalInt m hi').bind fun hi' => (evalInt m lo').bind fun lo' =>
        m.assignSlice l.str hi lo r.str hi' lo' := by
  obtain ⟨_, _, _, _, _, _, _, _, _, _, _, _, _, _, _, _, _, _, _⟩ := l
  obtain ⟨_, _, _, _, _, _, _, _, _, _, _, _, _, _, _, _, _, _, _⟩ := r
  dsimp only at hl hlc hr hrc
  subst hl hlc hr hrc
  rfl

section Exec

variable {fuel : Nat} {m : Machine} {n : AstNode}

theorem exec_assignEq {l r : AstNode} (ht : n.type = .assignEq) (hc : n.children = [l, r]) :
    exec (fuel + 1) m n = m.assign l r := by
  rw [exec, ht, hc]

theorem exec_block {a : AstNode} (ht : n.type = .block) (hc : n.children = [a]) :
    exec (fuel + 1) m n = exec fuel m a := by
  rw [exec, ht, hc]
  simp only [List.foldlM_cons, List.foldlM_nil, bind_pure]

theorem exec_forLoop {init cond inc body : AstNode} (ht : n.type = .forLoop)
    (hc : n.children = [init, cond, inc, body]) :
    exec (fuel + 1) m n = (exec fuel m init).bind (loopFor (exec fuel) cond inc body fuel) := by
  rw [exec, ht, hc]

end Exec

/-! ## 3. The stream, and what the loop writes -/

/-- `{<< s {x}}` of an `M`-bit `x`, most significant bit first: `x` cut into `s`-bit slices
from its least significant end, the last holding the `M % s` bits left, the slices in that
order, each keeping the order of its bits. -/
def streamBits (s M : Nat) (x : Nat → Bool) : List Bool :=
  (List.range ((M + s - 1) / s)).flatMap fun k =>
    ((List.range (min s (M - k * s))).map fun t => x (k * s + t)).reverse

/-- Bit `p` of an `N`-bit target assigned the stream `bits`: left-justified, zero padded on
the right. -/
def streamBit (N : Nat) (bits : List Bool) (p : Nat) : Bool := bits.getD (N - 1 - p) false

/-- The target after the first `k` iterations of the loop: iteration `k` copies
`temp[k*s + s - 1 : k*s]` to `lhs[N - 1 - k*s : N - (k + 1)*s]`. -/
def afterSlices (N s : Nat) (temp old : Nat → Bool) : Nat → Nat → Bool
  | 0, p => old p
  | k + 1, p =>
    if N - (k + 1) * s ≤ p ∧ p < N - k * s then temp (p - (N - (k + 1) * s) + k * s)
    else afterSlices N s temp old k p

/-- Bits below `N - k * s` are not written by the first `k` iterations. -/
theorem afterSlices_below {N s : Nat} {temp old : Nat → Bool} {p : Nat} :
    ∀ {k : Nat}, p < N - k * s → afterSlices N s temp old k p = old p
  | 0, _ => rfl
  | k + 1, hp => by
    have hks : (k + 1) * s = k * s + s := Nat.succ_mul k s
    rw [afterSlices, if_neg (by omega), afterSlices_below (by omega)]

/-- A bit of slot `j < k` holds what iteration `j` copied there. -/
theorem afterSlices_slot {N s : Nat} {temp old : Nat → Bool} {j p : Nat}
    (hp : N - (j + 1) * s ≤ p) (hp' : p < N - j * s) :
    ∀ {k : Nat}, j < k → afterSlices N s temp old k p = temp (p - (N - (j + 1) * s) + j * s)
  | k + 1, hj => by
    rw [afterSlices]
    rcases Nat.lt_succ_iff_lt_or_eq.1 hj with hj | rfl
    · have : (j + 1) * s ≤ k * s := Nat.mul_le_mul_right s hj
      rw [if_neg (by omega), afterSlices_slot hp hp' hj]
    · rw [if_pos ⟨hp, hp'⟩]

/-- `K` blocks of `s` elements each: element `k * s + r` is element `r` of block `k`. -/
theorem flatMap_range_blocks {α : Type} {s : Nat} (f : Nat → List α) :
    ∀ K, (∀ k < K, (f k).length = s) → ((List.range K).flatMap f).length = K * s ∧
      ∀ k r, k < K → r < s → ((List.range K).flatMap f)[k * s + r]? = (f k)[r]?
  | 0, _ => ⟨by simp, fun _ _ hk => absurd hk (Nat.not_lt_zero _)⟩
  | K + 1, hf => by
    obtain ⟨hlen, hget⟩ := flatMap_range_blocks f K fun k hk => hf k (by omega)
    rw [List.range_succ, List.flatMap_append, List.flatMap_singleton]
    refine ⟨by rw [List.length_append, hlen, hf K (by omega), Nat.succ_mul], fun k r hk hr => ?_⟩
    rcases Nat.lt_succ_iff_lt_or_eq.1 hk with hk | rfl
    · have : (k + 1) * s ≤ K * s := Nat.mul_le_mul_right s hk
      rw [List.getElem?_append_left (by rw [hlen, Nat.succ_mul] at *; omega), hget k r hk hr]
    · rw [List.getElem?_append_right (by omega), hlen, Nat.add_sub_cancel_left]

/-- The stream of an `x` of `K * s` bits: bit `r` from the top of slice `k` is
`x (k * s + (s - 1 - r))`. -/
theorem streamBits_full {s K k r : Nat} (x : Nat → Bool) (hs1 : 0 < s) (hk : k < K) (hr : r < s) :
    (streamBits s (K * s) x)[k * s + r]? = some (x (k * s + (s - 1 - r))) := by
  have hK : (K * s + s - 1) / s = K := by
    rw [show K * s + s - 1 = s - 1 + K * s by omega, Nat.add_mul_div_right _ _ hs1,
      Nat.div_eq_of_lt (by omega), Nat.zero_add]
  have hblock : ∀ j < K, min s (K * s - j * s) = s := fun j hj => by
    have : (j + 1) * s ≤ K * s := Nat.mul_le_mul_right s hj
    rw [Nat.succ_mul] at this
    omega
  rw [streamBits, hK, (flatMap_range_blocks _ K fun j hj => by simp [hblock j hj]).2 k r hk hr,
    List.getElem?_reverse (by simp [hblock k hk, hr])]
  simp [hblock k hk, hr, List.getElem?_range (show s - 1 - r < s by omega)]

/-- When `s` divides `N` and `x` is `N` bits wide, the `N / s` iterations write the
right-to-left stream of `x`. -/
theorem afterSlices_eq_stream {N s p : Nat} (x old : Nat → Bool) (hs1 : 0 < s) (hdvd : s ∣ N)
    (hp : p < N) :
    afterSlices N s (fun j => decide (j < N) && x j) old (N / s) p =
      streamBit N (streamBits s N x) p := by
  obtain ⟨K, rfl⟩ := hdvd
  rw [Nat.mul_comm s K] at hp ⊢
  have hq := Nat.div_add_mod' (K * s - 1 - p) s
  have hr : (K * s - 1 - p) % s < s := Nat.mod_lt _ hs1
  have hk : (K * s - 1 - p) / s < K := (Nat.div_lt_iff_lt_mul hs1).2 (by omega)
  generalize (K * s - 1 - p) / s = k at hq hk
  generalize (K * s - 1 - p) % s = r at hq hr
  have hks : (k + 1) * s = k * s + s := Nat.succ_mul _ _
  have hkK : (k + 1) * s ≤ K * s := Nat.mul_le_mul_right s hk
  rw [Nat.mul_div_cancel K hs1, afterSlices_slot (by omega) (by omega) hk, streamBit,
    List.getD_eq_getElem?_getD, ← hq, streamBits_full x hs1 hk hr, Option.getD_some,
    decide_eq_true (by omega), Bool.true_and]
  congr 1
  omega

/-! ## 4. One iteration, and the whole loop -/

section Loop

variable {I T L : String} {N s : Nat} {temp old : Nat → Bool} {slice : AstNode}

/-- The machine after `k` iterations: the counter at `k * s`, the target as the first `k`
iterations left it, the temporary and the widths as before. -/
structure AtSlice (I T L : String) (N s : Nat) (temp old : Nat → Bool) (m : Machine) (k : Nat) :
    Prop where
  counter : m.ints I = some ((k * s : Nat) : Int)
  target : m.vecs L = afterSlices N s temp old k
  temp : m.vecs T = temp
  lhs_width : m.widths L = N
  temp_width : m.widths T = N

/-- The loop's condition `i <= $bits(lhs) - s`. -/
theorem evalInt_streamCond {m : Machine} {k : Nat} (h : AtSlice I T L N s temp old m k)
    (hs : ∀ m : Machine, evalInt m slice = some (s : Int)) :
    evalInt m (streamCond (identNode I) slice (bitsCall (identNode L))) =
      some (if (k + 1) * s ≤ N then 1 else 0) := by
  simp only [streamCond, evalInt_le, evalInt_identNode, evalInt_sub, evalInt_bitsCall, h.counter,
    h.lhs_width, hs, Option.some_bind, Option.map_some']
  congr 1
  have : (k + 1) * s = k * s + s := Nat.succ_mul k s
  by_cases hk : (k + 1) * s ≤ N
  · rw [if_pos (by omega), if_pos hk]
  · rw [if_neg (by omega), if_neg hk]

/-- What one iteration writes: the slice of `afterSlices` for iteration `k`. -/
theorem slice_write {k : Nat} (hk : (k + 1) * s ≤ N) :
    (fun j : Nat =>
      if ((N : Int) - 1 - ((k * s : Nat) : Int) + 1 - s ≤ j ∧ (j : Int) ≤ (N : Int) - 1 - ((k * s : Nat) : Int) + 0)
      then temp (j + (((k * s : Nat) : Int) + 0).toNat - ((N : Int) - 1 - ((k * s : Nat) : Int) + 1 - s).toNat)
      else afterSlices N s temp old k j) = afterSlices N s temp old (k + 1) := by
  have hks : (k + 1) * s = k * s + s := Nat.succ_mul k s
  funext j
  dsimp only [afterSlices]
  by_cases hj : N - (k + 1) * s ≤ j ∧ j < N - k * s
  · rw [if_pos (by omega), if_pos hj]
    congr 1
    omega
  · rw [if_neg (by omega), if_neg hj]

/-- One iteration of the loop -- its block, then `i = i + s` -- from the machine after `k`
iterations, when the condition holds. -/
theorem exec_streamIter {m : Machine} {k f : Nat} {t : String}
    (h : AtSlice I T L N s temp old m k) (hs : ∀ m : Machine, evalInt m slice = some (s : Int))
    (hLT : L ≠ T) (hk : (k + 1) * s ≤ N) (hs1 : 0 < s) :
    ∃ m', ((exec (f + 2) m (streamBody t (streamAssign (identNode L) (identNode I)
        (identNode T) slice (bitsCall (identNode L))))).bind
        fun m => exec (f + 2) m (streamInc (identNode I) slice)) =
        some m' ∧ AtSlice I T L N s temp old m' (k + 1) := by
  have hks : (k + 1) * s = k * s + s := Nat.succ_mul k s
  rw [exec_block rfl rfl, streamAssign, exec_assignEq rfl rfl, Machine.assign_range m rfl rfl rfl rfl]
  simp only [evalInt_add, evalInt_sub, evalInt_selfsz, evalInt_bitsCall, evalInt_identNode,
    evalInt_mkconstInt, h.counter, h.lhs_width, hs, Option.some_bind, Option.map_some',
    identNode_str]
  have hslice : m.assignSlice L (↑N - 1 - ↑(k * s) + 0) (↑N - 1 - ↑(k * s) + 1 - ↑s) T
      (↑(k * s) + ↑s - 1) (↑(k * s) + 0) = some (m.setVec L (afterSlices N s temp old (k + 1))) := by
    rw [Machine.assignSlice, h.lhs_width, h.temp_width, if_pos (by omega), h.target, h.temp,
      slice_write hk]
  have hc : (m.setVec L (afterSlices N s temp old (k + 1))).ints I = some ((k * s : Nat) : Int) :=
    h.counter
  rw [hslice, Option.some_bind, exec_assignEq rfl rfl, Machine.assign_identNode,
    Machine.assignWhole, hc]
  simp only [evalInt_add, evalInt_identNode, hc, hs, Option.some_bind, Option.map_some']
  refine ⟨_, rfl, ⟨?_, ?_, ?_, h.lhs_width, h.temp_width⟩⟩
  · simp [hks]
  · simp
  · simp [Function.update_noteq hLT.symm, h.temp]

/-- From the machine after `k` iterations, the loop runs the `N / s - k` iterations left
and stops, given more fuel than iterations. -/
theorem loopFor_stream {f : Nat} {t : String}
    (hs : ∀ m : Machine, evalInt m slice = some (s : Int)) (hLT : L ≠ T) (hs1 : 0 < s) :
    ∀ (j k fuel : Nat) (m : Machine), AtSlice I T L N s temp old m k → k + j = N / s →
      j < fuel → ∃ m', loopFor (exec (f + 2)) (streamCond (identNode I) slice (bitsCall (identNode L)))
        (streamInc (identNode I) slice) (streamBody t (streamAssign (identNode L) (identNode I)
          (identNode T) slice (bitsCall (identNode L)))) fuel m = some m' ∧
        AtSlice I T L N s temp old m' (N / s)
  | 0, k, fuel + 1, m, h, hj, _ => by
    obtain rfl : k = N / s := hj
    have hstop : ¬(N / s + 1) * s ≤ N := by
      have := Nat.lt_mul_div_succ N hs1
      rw [Nat.mul_comm] at this
      omega
    refine ⟨m, ?_, h⟩
    rw [loopFor, evalInt_streamCond h hs, if_neg hstop]
    rfl
  | j + 1, k, fuel + 1, m, h, hj, hf => by
    have hgo : (k + 1) * s ≤ N := (Nat.le_div_iff_mul_le hs1).1 (by omega)
    obtain ⟨m', hm', h'⟩ := exec_streamIter (f := f) (t := t) h hs hLT hgo hs1
    obtain ⟨m'', hm'', h''⟩ := loopFor_stream hs hLT hs1 j (k + 1) fuel m' h' (by omega) (by omega)
    refine ⟨m'', ?_, h''⟩
    rw [loopFor, evalInt_streamCond h hs, if_pos hgo, Option.some_bind, if_neg (by decide : (1 : Int) ≠ 0),
      ← Option.bind_assoc, hm', Option.some_bind, hm'']

end Loop

/-! ## 5. The statements `process_stream_op` emits -/

/-- The declarations of `process_stream_op` in effect for the target `L` and the streamed
vector `X`: the counter an integer variable, the temporary a vector as wide as the target. -/
structure StreamFrame (m : Machine) (loopId : Nat) (L X : String) (N M : Nat) : Prop where
  counter_int : (m.ints (counterName loopId)).isSome
  temp_vec : m.ints (tempName loopId) = none
  x_vec : m.ints X = none
  lhs_width : m.widths L = N
  temp_width : m.widths (tempName loopId) = N
  x_width : m.widths X = M
  lhs_ne_temp : L ≠ tempName loopId

/-- For every target width `N`, slice size `s ≥ 1` (the first constant operand, or `1`) and
value of `x`, the statements `process_stream_op` emits for `lhs = {<< s {x}}` run to the end
with enough fuel, and leave the target as `N / s` iterations of the loop write it, from
`temp = x` zero-extended. -/
theorem exec_streamOp {loopId : Nat} {L X : String} {N M s fuel : Nat} {ops : List AstNode}
    {sz : Option AstNode} {m : Machine} (hops : splitSlice ops = (sz, [identNode X]))
    (hsz : (sz.getD (mkconstInt 1)).type = .constant) (hs : (sz.getD (mkconstInt 1)).integer = s)
    (hs1 : 0 < s) (hm : StreamFrame m loopId L X N M) (hfuel : N / s + 4 ≤ fuel) :
    ∃ m', (streamOp loopId (identNode L) ops).2.foldlM (exec fuel) m = some m' ∧
      m'.vecs L = afterSlices N s (fun j => decide (j < M) && m.vecs X j) (m.vecs L) (N / s) := by
  have h4 : 4 ≤ fuel := le_trans (Nat.le_add_left 4 _) hfuel
  obtain ⟨f, rfl⟩ : ∃ f, fuel = f + 2 + 2 := ⟨fuel - 4, by omega⟩
  have hslice (m : Machine) : evalInt m (sz.getD (mkconstInt 1)) = some (s : Int) := by
    rw [evalInt_of_constant m hsz, hs]
  obtain ⟨c, hc⟩ := Option.isSome_iff_exists.1 hm.counter_int
  let tz := fun j => decide (j < M) && m.vecs X j
  let m₂ := (m.setVec (tempName loopId) tz).setInt (counterName loopId) 0
  have h₂ : AtSlice (counterName loopId) (tempName loopId) L N s tz (m.vecs L) m₂ 0 :=
    ⟨by simp [m₂], by simp [m₂, afterSlices, Function.update_noteq hm.lhs_ne_temp],
      by simp [m₂], by simp [m₂, hm.lhs_width], by simp [m₂, hm.temp_width]⟩
  obtain ⟨m', hrun, h'⟩ := loopFor_stream (f := f) (t := toString loopId) hslice hm.lhs_ne_temp
    hs1 (N / s) 0 (f + 2) m₂ h₂ (by omega) (by omega)
  refine ⟨m', ?_, h'.target⟩
  have htemp : exec (f + 2 + 2) m { AstNode.new .assignEq with
      children := [identNode (tempName loopId), identNode X] } =
      some (m.setVec (tempName loopId) tz) := by
    rw [exec_assignEq rfl rfl, Machine.assign_identNode, Machine.assignWhole, hm.temp_vec]
    simp [hm.x_vec, hm.x_width, tz]
  have hinit : exec (f + 2) (m.setVec (tempName loopId) tz)
      (node2 .assignEq (identNode (counterName loopId)) (mkconstInt 0)) = some m₂ := by
    rw [exec_assignEq rfl rfl, Machine.assign_identNode, Machine.assignWhole]
    simp [hc, m₂]
  simp only [streamOp, hops, identNode_type, if_neg (by decide : AstNodeType.identifier ≠ .wire)]
  rw [List.foldlM_cons, htemp, Option.bind_eq_bind, Option.some_bind, List.foldlM_cons,
    exec_block rfl rfl, exec_forLoop rfl rfl, hinit, Option.some_bind, hrun]
  rfl

/-- **The lowering streams correctly when the slice size divides the target's width.**  For
every target width `N`, slice size `s ≥ 1` and value of `x`, the statements
`process_stream_op` emits for `lhs = {<< s {x}}` run to the end with enough fuel.  When `s`
divides `N` and `x` is `N` bits wide, every bit of the target is then that bit of the
right-to-left stream of `x`; whatever `s`, the `N % s` low bits of the target keep their
value. -/
theorem streamOp_stream {loopId : Nat} {L X : String} {N M s fuel : Nat} {ops : List AstNode}
    {sz : Option AstNode} {m : Machine} (hops : splitSlice ops = (sz, [identNode X]))
    (hsz : (sz.getD (mkconstInt 1)).type = .constant) (hs : (sz.getD (mkconstInt 1)).integer = s)
    (hs1 : 0 < s) (hm : StreamFrame m loopId L X N M) (hfuel : N / s + 4 ≤ fuel) :
    ∃ m', (streamOp loopId (identNode L) ops).2.foldlM (exec fuel) m = some m' ∧
      (s ∣ N → M = N → ∀ p < N, m'.vecs L p = streamBit N (streamBits s N (m.vecs X)) p) ∧
      ∀ p < N % s, m'.vecs L p = m.vecs L p := by
  obtain ⟨m', hrun, hL⟩ := exec_streamOp hops hsz hs hs1 hm hfuel
  refine ⟨m', hrun, fun hdvd hM p hp => ?_, fun p hp => ?_⟩
  · subst hM
    rw [hL]
    exact afterSlices_eq_stream _ _ hs1 hdvd hp
  · have hdm := Nat.div_add_mod' N s
    rw [hL]
    exact afterSlices_below (by omega)

/-! ## 6. A 3-bit value streamed into a 4-bit target -/

/-- The block `lhs = {<< 2 {x}}` runs in, for loop `0`: `lhs` a 4-bit vector holding `0`,
`x` a 3-bit vector holding `3'b111`, the counter an integer variable and the temporary as
wide as `lhs`. -/
def streamMachine : Machine where
  ints := fun v => if v = counterName 0 then some 0 else none
  vecs := fun v j => decide (v = "\\x") && decide (j < 3)
  widths := fun v => if v = "\\x" then 3 else 4

theorem streamMachine_frame : StreamFrame streamMachine 0 "\\lhs" "\\x" 4 3 :=
  ⟨by decide, by decide, by decide, by decide, by decide, by decide, by decide⟩

theorem streamOp_stream_streamMachine :
    ∃ m', (streamOp 0 (identNode "\\lhs") [mkconstInt 2, identNode "\\x"]).2.foldlM (exec 8)
        streamMachine = some m' ∧
      (2 ∣ 4 → 3 = 4 → ∀ p < 4, m'.vecs "\\lhs" p =
        streamBit 4 (streamBits 2 4 (streamMachine.vecs "\\x")) p) ∧
      ∀ p < 4 % 2, m'.vecs "\\lhs" p = streamMachine.vecs "\\lhs" p :=
  @streamOp_stream 0 "\\lhs" "\\x" 4 3 2 8 _ (some (mkconstInt 2)) streamMachine rfl rfl rfl
    (by decide) streamMachine_frame (by decide)

/-- With `N = 4`, `s = 2` and `x = 3'b111`, the statements leave `lhs = 4'b1101` (the lists
start at bit 0); the stream of `x`, padded on the right, is `4'b1110`. -/
theorem streamOp_misplaces_tail :
    ((streamOp 0 (identNode "\\lhs") [mkconstInt 2, identNode "\\x"]).2.foldlM (exec 8)
        streamMachine).map (fun m => (List.range 4).map (m.vecs "\\lhs")) =
      some [true, false, true, true] ∧
    (List.range 4).map (streamBit 4 (streamBits 2 3 (streamMachine.vecs "\\x"))) =
      [false, true, true, true] := by
  obtain ⟨m', hrun, hL⟩ := @exec_streamOp 0 "\\lhs" "\\x" 4 3 2 8
    [mkconstInt 2, identNode "\\x"] (some (mkconstInt 2)) streamMachine rfl rfl rfl (by decide)
    streamMachine_frame (by decide)
  rw [hrun, Option.map_some', hL]
  decide

end UhdmPlugin
