/-
# Struct paths: `expand_dot`, `get_max_offset`, `convert_dot`

After Yosys lays a packed struct out, every `AST_STRUCT_ITEM` carries its absolute bounds
`range_left`/`range_right` within the outermost struct, the first-declared member most
significant; a nested `AST_STRUCT` member carries no range of its own (`range_left = -1`,
the constructor's default).  `process_hier_path` encodes `s.f1.f2[x]` as the identifier `s`
with a chain of `AST_DOT` children, the selector a child of the last one.

`expand_dot` walks that chain: it finds the member named by each `AST_DOT` (its leading
backslash stripped), reads the member's bounds -- an item's own, or for a nested struct
the `range_left` of its first child and the `range_right` of its last -- lets a deeper
`AST_DOT` replace them, and applies a trailing selector: on an item it adds the selector to
`range_right`; on a nested struct an index `x` moves the whole member by `x` times its
width (the struct read as an array element), and a constant part-select narrows it.

* `ownsBit_iff`: on a laid-out struct `span` is exactly the set of bits a member owns.
* `expandDot_chain`: along a path, `expand_dot` only reads the member the path ends at.
* `expandDot_addressed_bits`: without a selector the result is exactly the bits of that
  member, an item or a nested struct that starts and ends with items; a selector `[a:b]` on
  an item lands on `range_right + a` down to `range_right + b`; an index on a nested struct
  moves it by whole widths, and a constant part-select `[a:0]` keeps its low bits.
* `expandDot_struct_index_moves`: so `s.inner[1]` of a one-byte `inner` lands on the byte
  above it, not on bit 1 of `inner`.

Not covered: a nested struct whose first or last member is itself a struct (its
`range_left` is the default `-1`), selectors on items declared other than `[w-1:0]`, and
part-selects `[a:b]` with `b ≠ 0` on nested structs, whose `left` lands at `lo + a - b`
(`finishAt_struct_part`).
-/
import UhdmPlugin.Flatten

namespace UhdmPlugin

open AstNode

/-! ## 1. The code -/

/-- `get_max_offset`'s loop: follow first children until a node with `range_left ≥ 0`. -/
def maxOffsetFrom : AstNode → Option Int
  | n@{ children := c :: _, .. } => if n.rangeLeft < 0 then maxOffsetFrom c else some n.rangeLeft
  | n => if n.rangeLeft < 0 then none else some n.rangeLeft

/-- `get_max_offset`: the most significant bit of a struct or union. -/
def getMaxOffset (n : AstNode) : Option Int :=
  if n.type = .struct ∨ n.type = .union then maxOffsetFrom n else none

/-- `search_str`: the name without the leading backslash `process_hier_path` gave it
(`str.find("\\") == 0 ? str.substr(1) : str`). -/
def searchStr (str : String) : String :=
  match str.data with
  | '\\' :: cs => String.mk cs
  | _ => str

/-- The bounds `expand_dot` reads for a member: an item's own, or the `range_left` of a
nested struct's first child and the `range_right` of its last.  `none` where the source
calls `log_error`. -/
def memberBounds (elem : AstNode) : Option (AstNode × AstNode) :=
  if elem.type = .structItem then some (mkconstInt elem.rangeLeft, mkconstInt elem.rangeRight)
  else if elem.type = .struct then
    match elem.children.head?, elem.children.getLast? with
    | some f, some l => some (mkconstInt f.rangeLeft, mkconstInt l.rangeRight)
    | _, _ => none
  else none

/-- `elem_size = left - right + 1`. -/
def elemSize (left right : AstNode) : AstNode := node2 .add (node2 .sub left right) (mkconstInt 1)

/-- A trailing `AST_RANGE` applied to a member with bounds `(left, right)`. -/
def applyRange (elem sr : AstNode) (left right : AstNode) (size : AstNode) :
    Option (AstNode × AstNode) :=
  if elem.type = .structItem then
    match sr.children with
    | [c0, c1] =>
      let rangeSize := node2 .add (node2 .sub c0 c1) (mkconstInt 1)
      some (node2 .add left (node2 .add c1 (node2 .sub rangeSize size)), node2 .add right c1)
    | [c0] => some (node2 .add right c0, node2 .add right c0)
    | _ => none
  else if elem.type = .struct then
    match sr.children with
    | [c0, c1] =>
      if c0.type = .constant ∧ sr.rangeLeft ≠ sr.rangeRight then
        let rangeSize := node2 .add (node2 .sub c0 c1) (mkconstInt 1)
        some (node2 .add left (node2 .sub rangeSize size), node2 .add right c1)
      else none
    | [c0] => some (node2 .add left (node2 .mul size c0), node2 .add right (node2 .mul size c0))
    | _ => none
  else none

mutual

/-- `expand_dot(current_struct, search_node)`, returning the `(left, right)` children of the
range it builds. -/
def expandDot (s : AstNode) : AstNode → Option (AstNode × AstNode)
  | search@{ children := cs, .. } => do
    let elem ← s.children.find? (·.str = searchStr search.str)
    let (left, right) ← memberBounds elem
    let (subDot, structRange) ← scanChildren elem cs
    let (left', right') := subDot.getD (left, right)
    match structRange with
    | none => some (left', right')
    | some sr => applyRange elem sr left' right' (elemSize left right)

/-- The loop over `search_node`'s children: the expansion of its one `AST_DOT` child and its
one `AST_RANGE` child (a second of either fails a `log_assert`). -/
def scanChildren (elem : AstNode) : List AstNode → Option (Option (AstNode × AstNode) × Option AstNode)
  | [] => some (none, none)
  | c@{ type := .dot, .. } :: cs => do
    let (subDot, structRange) ← scanChildren elem cs
    if subDot.isSome then none else
    let e ← expandDot elem c
    some (some e, structRange)
  | c@{ type := .range, .. } :: cs => do
    let (subDot, structRange) ← scanChildren elem cs
    if structRange.isSome then none else some (subDot, some c)
  | _ :: cs => scanChildren elem cs

end

/-- The struct `convert_dot` expands against: the declaration itself when it is a struct, or
what its `wiretype` attribute's `id2ast` points to. -/
def structOf (w : AstNode) : Option AstNode :=
  if w.type = .struct then some w else if w.wiretype then w.wiretypeAst else none

/-- `convert_dot(wire_node, node, dot)`: the struct is the declaration itself or what its
`wiretype` attribute points to; when the identifier's first child is a selector, the result
is moved to element `unpacked_range - index` of the flattened declaration, each element
`get_max_offset(struct) + 1` bits wide. -/
def convertDot (w node dot : AstNode) : Option AstNode := do
  let structNode ← structOf w
  let (l, r) ← expandDot structNode dot
  match node.children with
  | c :: _ =>
    if c.type = .range then
      let size ← getMaxOffset structNode
      let last ← w.multirangeDimensions.getLast?
      let idx ← c.children.head?
      let off := node2 .mul (mkconstInt (size + 1)) (node2 .sub (mkconstInt (last - 1)) idx)
      return node2 .range (node2 .add l off) (node2 .add r off)
    else return node2 .range l r
  | [] => none

/-! ## 2. Yosys's layout, and the bits a member owns -/

mutual

/-- The bits a member occupies, `(msb, lsb)`: an item's own bounds; a nested struct's run
from its first member's msb to its last member's lsb. -/
def span : AstNode → Option (Int × Int)
  | n@{ children := cs, .. } =>
    if n.type = .structItem then some (n.rangeLeft, n.rangeRight)
    else if n.type = .struct then spanList cs else none

/-- The bits a list of members occupies, first member most significant. -/
def spanList : List AstNode → Option (Int × Int)
  | [] => none
  | [c] => span c
  | c :: cs => do
    let (hi, _) ← span c
    let (_, lo) ← spanList cs
    some (hi, lo)

end

mutual

/-- Yosys's layout: an item spans `[range_left:range_right]` with `range_right ≤
range_left`; a nested struct carries no range of its own and lays its members out
contiguously, the first most significant. -/
def Laid : AstNode → Prop
  | n@{ children := cs, .. } =>
    if n.type = .structItem then n.rangeRight ≤ n.rangeLeft
    else n.type = .struct ∧ n.rangeLeft < 0 ∧ LaidList cs

/-- A member list laid out contiguously, each member ending one bit above the next. -/
def LaidList : List AstNode → Prop
  | [] => False
  | [c] => Laid c
  | c :: c' :: cs => Laid c ∧ LaidList (c' :: cs) ∧
      ∃ lo hi, (span c).map (·.2) = some lo ∧ (spanList (c' :: cs)).map (·.1) = some hi ∧
        lo = hi + 1

end

mutual

/-- Member `n` owns bit `b`: one of its items covers it. -/
def OwnsBit : AstNode → Int → Prop
  | n@{ children := cs, .. }, b =>
    if n.type = .structItem then n.rangeRight ≤ b ∧ b ≤ n.rangeLeft
    else n.type = .struct ∧ OwnsBitList cs b

/-- One of the members owns bit `b`. -/
def OwnsBitList : List AstNode → Int → Prop
  | [], _ => False
  | c :: cs, b => OwnsBit c b ∨ OwnsBitList cs b

end

/-- A laid-out struct, the outermost one included: a struct whose members are laid out. -/
def LaidStruct (s : AstNode) : Prop := s.type = .struct ∧ LaidList s.children

mutual

/-- **A laid-out member owns exactly the bits of its span.** -/
theorem ownsBit_iff : ∀ (n : AstNode), Laid n →
    ∃ hi lo, span n = some (hi, lo) ∧ lo ≤ hi ∧ ∀ b, OwnsBit n b ↔ lo ≤ b ∧ b ≤ hi
  | { type := ty, rangeLeft := rl, rangeRight := rr, children := cs, .. }, h => by
    by_cases hi : ty = .structItem
    · simp only [Laid, hi, if_true] at h
      exact ⟨rl, rr, by simp [span, hi], h, fun b => by simp [OwnsBit, hi]⟩
    · simp only [Laid, hi, if_false] at h
      obtain ⟨hst, -, hl⟩ := h
      obtain ⟨hi', lo, hs, hle, hb⟩ := ownsBitList_iff cs hl
      exact ⟨hi', lo, by simp [span, hst, hs], hle, fun b => by simp [OwnsBit, hst, hb]⟩

/-- The same for a contiguous member list. -/
theorem ownsBitList_iff : ∀ (cs : List AstNode), LaidList cs →
    ∃ hi lo, spanList cs = some (hi, lo) ∧ lo ≤ hi ∧ ∀ b, OwnsBitList cs b ↔ lo ≤ b ∧ b ≤ hi
  | [], h => by simp [LaidList] at h
  | [c], h => by
    obtain ⟨hi, lo, hs, hle, hb⟩ := ownsBit_iff c h
    exact ⟨hi, lo, hs, hle, fun b => by simp [OwnsBitList, hb]⟩
  | c :: c' :: cs, ⟨hc, hcs, lo₁, hi₂, h₁, h₂, hjoin⟩ => by
    obtain ⟨hi, lo, hs, hle, hb⟩ := ownsBit_iff c hc
    obtain ⟨hi', lo', hs', hle', hb'⟩ := ownsBitList_iff (c' :: cs) hcs
    simp only [hs, Option.map_some', Option.some.injEq] at h₁
    simp only [hs', Option.map_some', Option.some.injEq] at h₂
    subst h₁ h₂
    refine ⟨hi, lo', by simp [spanList, hs, hs'], by omega, fun b => ?_⟩
    simp only [OwnsBitList] at hb' ⊢
    rw [hb, hb']
    omega

end

theorem spanList_ends : ∀ (cs : List AstNode) (hi lo : Int), spanList cs = some (hi, lo) →
    (∀ f ∈ cs.head?, (span f).map (·.1) = some hi) ∧
      (∀ l ∈ cs.getLast?, (span l).map (·.2) = some lo)
  | [], _, _, h => by simp [spanList] at h
  | [c], _, _, h => by simp_all [spanList]
  | c :: c' :: cs, hi, lo, h => by
    simp only [spanList, Option.bind_eq_bind, Option.bind_eq_some, Option.some.injEq] at h
    obtain ⟨⟨hi₁, lo₁⟩, h₁, ⟨hi₂, lo₂⟩, h₂, he⟩ := h
    simp only [Prod.mk.injEq] at he
    obtain ⟨rfl, rfl⟩ := he
    refine ⟨by simp [h₁], fun l hl => ?_⟩
    exact (spanList_ends (c' :: cs) _ _ h₂).2 l (by simpa [List.getLast?_cons_cons] using hl)

/-! ## 3. What `expand_dot` returns along a path -/

/-- The `AST_DOT` chain `process_hier_path` builds for the names `ns`, spelled as in the
AST, the selector `sel`, if any, a child of the last. -/
def dotChain : List String → Option AstNode → Option AstNode
  | [], _ => none
  | [n], sel => some { AstNode.new .dot with str := n, children := sel.toList }
  | n :: ns, sel => (dotChain ns sel).map fun d => { AstNode.new .dot with str := n, children := [d] }

/-- The member the names `ns` reach from struct `s`, through nested structs. -/
def memberAt (s : AstNode) : List String → Option AstNode
  | [] => none
  | [n] => s.children.find? (·.str = searchStr n)
  | n :: ns => (s.children.find? (·.str = searchStr n)).bind fun m =>
      if m.type = .struct then memberAt m ns else none

/-- What `expand_dot` does at the member a path ends at: read its bounds and apply the
selector, if any. -/
def finishAt (M : AstNode) (sel : Option AstNode) : Option (AstNode × AstNode) :=
  (memberBounds M).bind fun b =>
    match sel with
    | none => some b
    | some sr => applyRange M sr b.1 b.2 (elemSize b.1 b.2)

theorem expandDot_eq (s search : AstNode) : expandDot s search = (do
    let elem ← s.children.find? (·.str = searchStr search.str)
    let (left, right) ← memberBounds elem
    let (subDot, structRange) ← scanChildren elem search.children
    let (left', right') := subDot.getD (left, right)
    match structRange with
    | none => some (left', right')
    | some sr => applyRange elem sr left' right' (elemSize left right)) := by
  cases search; rw [expandDot]

/-- One child of the loop, by its type. -/
theorem scanChildren_cons (elem c : AstNode) (cs : List AstNode) :
    scanChildren elem (c :: cs) =
      if c.type = .dot then
        (do
          let (sd, sr) ← scanChildren elem cs
          if sd.isSome then none else (expandDot elem c).bind fun e => some (some e, sr))
      else if c.type = .range then
        (do
          let (sd, sr) ← scanChildren elem cs
          if sr.isSome then none else some (sd, some c))
      else scanChildren elem cs := by
  rcases c with ⟨ty⟩
  by_cases hd : ty = .dot
  · subst hd; simp [scanChildren]
  · by_cases hr : ty = .range
    · subst hr; simp [scanChildren]
    · rw [scanChildren.eq_4] <;> simp [hd, hr]

theorem scanChildren_dot (elem d : AstNode) (hd : d.type = .dot) :
    scanChildren elem [d] = (expandDot elem d).map fun e => (some e, none) := by
  rw [scanChildren_cons, if_pos hd, scanChildren.eq_1]
  cases expandDot elem d <;> rfl

theorem scanChildren_range (elem r : AstNode) (hr : r.type = .range) :
    scanChildren elem [r] = some (none, some r) := by
  rw [scanChildren_cons, if_neg (by rw [hr]; decide), if_pos hr, scanChildren.eq_1]
  rfl

theorem dotChain_type {sel : Option AstNode} :
    ∀ {ns : List String} {d : AstNode}, dotChain ns sel = some d → d.type = .dot
  | [], _, h => by simp [dotChain] at h
  | [_], _, h => by simp only [dotChain, Option.some.injEq] at h; subst h; rfl
  | _ :: _ :: _, _, h => by
    simp only [dotChain, Option.map_eq_some'] at h
    obtain ⟨_, _, rfl⟩ := h
    rfl

/-- **`expand_dot` along a path** only reads the member the path ends at: the deeper
`AST_DOT` always replaces the bounds read on the way. -/
theorem expandDot_chain {sel : Option AstNode} (hsel : ∀ r ∈ sel, r.type = .range) :
    ∀ (ns : List String) (s d M : AstNode), dotChain ns sel = some d → memberAt s ns = some M →
      expandDot s d = finishAt M sel
  | [], _, _, _, h, _ => by simp [dotChain] at h
  | [n], s, d, M, hd, hM => by
    simp only [dotChain, Option.some.injEq] at hd
    subst hd
    simp only [memberAt] at hM
    rw [expandDot_eq]
    cases sel with
    | none => simp [hM, scanChildren, finishAt]
    | some r => simp [hM, scanChildren_range M r (hsel r rfl), finishAt]
  | n :: n' :: ns, s, d, M, hd, hM => by
    simp only [dotChain, Option.map_eq_some'] at hd
    obtain ⟨d', hd', rfl⟩ := hd
    simp only [memberAt, Option.bind_eq_some] at hM
    obtain ⟨m, hm, hM⟩ := hM
    split at hM
    · next hst =>
      have hne : m.children ≠ [] := by
        intro h
        cases ns <;> simp [memberAt, h] at hM
      obtain ⟨f, fs, hcs⟩ := List.exists_cons_of_ne_nil hne
      have hb : ∃ b, memberBounds m = some b := by
        simp [memberBounds, hst, hcs, List.getLast?_eq_getLast (f :: fs) (List.cons_ne_nil _ _)]
      obtain ⟨b, hb⟩ := hb
      rw [expandDot_eq]
      simp only [hm, hb, Option.bind_eq_bind, Option.some_bind, scanChildren_dot m d' (dotChain_type hd'),
        expandDot_chain hsel (n' :: ns) m d' M hd' hM]
      cases finishAt M sel <;> rfl
    · simp at hM

/-! ## 4. The bits `expand_dot` addresses -/

theorem span_eq (n : AstNode) : span n =
    if n.type = .structItem then some (n.rangeLeft, n.rangeRight)
    else if n.type = .struct then spanList n.children else none := by
  cases n; rw [span]

theorem laid_iff (n : AstNode) : Laid n ↔
    if n.type = .structItem then n.rangeRight ≤ n.rangeLeft
    else n.type = .struct ∧ n.rangeLeft < 0 ∧ LaidList n.children := by
  cases n; rw [Laid]

theorem laid_of_mem : ∀ {cs : List AstNode}, LaidList cs → ∀ c ∈ cs, Laid c
  | [], h => h.elim
  | [_], h => by simpa [LaidList] using h
  | _ :: _ :: _, ⟨hc, hcs, _⟩ => fun x hx => by
    rcases List.mem_cons.1 hx with rfl | hx
    · exact hc
    · exact laid_of_mem hcs x hx

/-- Every member a path reaches in a laid-out struct is laid out. -/
theorem memberAt_laid : ∀ {ns : List String} {s M : AstNode}, LaidStruct s →
    memberAt s ns = some M → Laid M
  | [], _, _, _, h => by simp [memberAt] at h
  | [_], _, _, hs, h => laid_of_mem hs.2 _ (List.mem_of_find?_eq_some h)
  | _ :: _ :: _, _, _, hs, h => by
    simp only [memberAt, Option.bind_eq_some] at h
    obtain ⟨m, hm, hM⟩ := h
    split at hM
    · next hst =>
      have hl := (laid_iff m).1 (laid_of_mem hs.2 m (List.mem_of_find?_eq_some hm))
      simp only [hst, if_neg (by decide : AstNodeType.struct ≠ .structItem)] at hl
      exact memberAt_laid ⟨hst, hl.2.2⟩ hM
    · simp at hM

/-- A nested struct whose first and last members are items: the shape whose bounds
`expand_dot` reads from `children.front()` and `children.back()` correctly. -/
def EndsWithItems (M : AstNode) : Prop :=
  (∀ f ∈ M.children.head?, f.type = .structItem) ∧ ∀ l ∈ M.children.getLast?, l.type = .structItem

/-- The bounds `expand_dot` reads for a laid-out member are its span, for an item and for a
nested struct that starts and ends with items. -/
theorem memberBounds_span {M : AstNode} (hl : Laid M) (he : M.type = .structItem ∨ EndsWithItems M) :
    ∃ hi lo, span M = some (hi, lo) ∧ memberBounds M = some (mkconstInt hi, mkconstInt lo) := by
  by_cases hi : M.type = .structItem
  · exact ⟨M.rangeLeft, M.rangeRight, by simp [span_eq, hi], by simp [memberBounds, hi]⟩
  obtain ⟨hst, -, hlist⟩ := by simpa only [laid_iff, hi, if_false] using hl
  obtain ⟨hfi, hli⟩ := he.resolve_left hi
  obtain ⟨hi', lo, hs, -, -⟩ := ownsBitList_iff _ hlist
  obtain ⟨hf, hlast⟩ := spanList_ends _ _ _ hs
  have hne : M.children ≠ [] := by rintro h; simp [h, LaidList] at hlist
  obtain ⟨f, fs, hcs⟩ := List.exists_cons_of_ne_nil hne
  have hlm : (f :: fs).getLast? = some ((f :: fs).getLast (List.cons_ne_nil _ _)) :=
    List.getLast?_eq_getLast _ _
  rw [hcs] at hf hlast hfi hli
  have h1 := hf f rfl
  have h2 := hlast _ hlm
  rw [span_eq, if_pos (hfi f rfl)] at h1
  rw [span_eq, if_pos (hli _ hlm)] at h2
  simp only [Option.map_some', Option.some.injEq] at h1 h2
  refine ⟨hi', lo, by simp [span_eq, hst, hs], ?_⟩
  simp [memberBounds, hst, hcs, hlm, h1, h2]

/-- The `[a:b]` a selector addresses, a single index `x` read as `[x:x]`. -/
def selBounds (ρ : AstNode → Int) (sr : AstNode) : Option (Int × Int) :=
  match sr.children with
  | [c0, c1] => some (eval ρ c0, eval ρ c1)
  | [c0] => some (eval ρ c0, eval ρ c0)
  | _ => none

variable (ρ : AstNode → Int)

/-- A selector `[a:b]` on an item lands on `range_right + a` down to `range_right + b`. -/
theorem finishAt_item {M sr : AstNode} {a b : Int} (hM : M.type = .structItem)
    (hsel : selBounds ρ sr = some (a, b)) :
    ∃ l r, finishAt M (some sr) = some (l, r) ∧
      eval ρ l = M.rangeRight + a ∧ eval ρ r = M.rangeRight + b := by
  simp only [finishAt, memberBounds, hM, if_true, Option.some_bind, applyRange]
  rcases hc : sr.children with _ | ⟨c0, _ | ⟨c1, _ | _⟩⟩ <;>
    simp only [selBounds, hc, Option.some.injEq, Prod.mk.injEq, reduceCtorEq] at hsel
  · exact ⟨_, _, rfl, by simp [hsel.1], by simp [hsel.2]⟩
  · refine ⟨_, _, rfl, ?_, by simp [hsel.2]⟩
    simp [elemSize, hsel.1, hsel.2]
    ring

/-- An index `x` on a nested struct `[hi:lo]` moves the whole member by `x` times its
width: the member read as element `x` of an array of such structs. -/
theorem finishAt_struct_index {M sr x : AstNode} {hi lo : Int} (hst : M.type = .struct)
    (hb : memberBounds M = some (mkconstInt hi, mkconstInt lo)) (hx : sr.children = [x]) :
    ∃ l r, finishAt M (some sr) = some (l, r) ∧
      eval ρ l = hi + (hi - lo + 1) * eval ρ x ∧ eval ρ r = lo + (hi - lo + 1) * eval ρ x := by
  simp only [finishAt, hb, Option.some_bind, applyRange, hst, hx, reduceCtorEq, if_false]
  exact ⟨_, _, rfl, by simp [elemSize], by simp [elemSize]⟩

/-- A constant part-select `[a:b]` on a nested struct `[hi:lo]`: `right` moves up by `b`,
`left` lands at `lo + a - b`. -/
theorem finishAt_struct_part {M sr c0 c1 : AstNode} {hi lo : Int} (hst : M.type = .struct)
    (hb : memberBounds M = some (mkconstInt hi, mkconstInt lo)) (hc : sr.children = [c0, c1])
    (hconst : c0.type = .constant) (hne : sr.rangeLeft ≠ sr.rangeRight) :
    ∃ l r, finishAt M (some sr) = some (l, r) ∧
      eval ρ l = lo + eval ρ c0 - eval ρ c1 ∧ eval ρ r = lo + eval ρ c1 := by
  simp only [finishAt, hb, Option.some_bind, applyRange, hst, hc, hconst, reduceCtorEq, if_false,
    if_true, ne_eq, hne, not_false_eq_true, and_self]
  refine ⟨_, _, rfl, ?_, by simp⟩
  simp [elemSize]
  ring

/-- **The bits `expand_dot` addresses.**  Along any path of a laid-out struct, the selector a
child of the last `AST_DOT`: without a selector the result is exactly the bits the member
owns, for an item and for a nested struct that starts and ends with items; `[a:b]` on an
item gives `range_right + a` down to `range_right + b`, the addressed bits of an item
declared `[w-1:0]`; an index `x` on a nested struct moves the whole member by `x` widths, as
element `x` of an array; a constant part-select `[a:0]` on it gives its low `a + 1` bits. -/
theorem expandDot_addressed_bits {s M d : AstNode} {ns : List String} {sel : Option AstNode}
    (hs : LaidStruct s) (hsel : ∀ r ∈ sel, r.type = .range)
    (hd : dotChain ns sel = some d) (hM : memberAt s ns = some M) :
    (sel = none → (M.type = .structItem ∨ EndsWithItems M) →
      ∃ l r, expandDot s d = some (l, r) ∧ ∀ b, OwnsBit M b ↔ eval ρ r ≤ b ∧ b ≤ eval ρ l) ∧
    (∀ sr a b, sel = some sr → M.type = .structItem → selBounds ρ sr = some (a, b) →
      ∃ l r, expandDot s d = some (l, r) ∧
        eval ρ l = M.rangeRight + a ∧ eval ρ r = M.rangeRight + b) ∧
    (∀ sr x, sel = some sr → M.type = .struct → EndsWithItems M → sr.children = [x] →
      ∃ l r hi lo, expandDot s d = some (l, r) ∧ span M = some (hi, lo) ∧
        eval ρ l = hi + (hi - lo + 1) * eval ρ x ∧ eval ρ r = lo + (hi - lo + 1) * eval ρ x) ∧
    (∀ sr c0 c1, sel = some sr → M.type = .struct → EndsWithItems M → sr.children = [c0, c1] →
      c0.type = .constant → sr.rangeLeft ≠ sr.rangeRight → eval ρ c1 = 0 →
      ∃ l r hi lo, expandDot s d = some (l, r) ∧ span M = some (hi, lo) ∧
        eval ρ l = lo + eval ρ c0 ∧ eval ρ r = lo) := by
  have hchain := expandDot_chain hsel ns s d M hd hM
  have hl := memberAt_laid hs hM
  refine ⟨?_, ?_, ?_, ?_⟩
  · rintro rfl he
    obtain ⟨hi, lo, hsp, hb⟩ := memberBounds_span hl he
    obtain ⟨hi', lo', hsp', -, hown⟩ := ownsBit_iff M hl
    rw [hsp, Option.some.injEq, Prod.mk.injEq] at hsp'
    obtain ⟨rfl, rfl⟩ := hsp'
    exact ⟨_, _, by rw [hchain, finishAt, hb]; rfl, by simpa using hown⟩
  · rintro sr a b rfl hi hsb
    rw [hchain]
    exact finishAt_item ρ hi hsb
  · rintro sr x rfl hst he hx
    obtain ⟨hi, lo, hsp, hb⟩ := memberBounds_span hl (.inr he)
    obtain ⟨l, r, h, hl, hr⟩ := finishAt_struct_index ρ hst hb hx
    exact ⟨l, r, hi, lo, hchain ▸ h, hsp, hl, hr⟩
  · rintro sr c0 c1 rfl hst he hc hconst hne h0
    obtain ⟨hi, lo, hsp, hb⟩ := memberBounds_span hl (.inr he)
    obtain ⟨l, r, h, hl, hr⟩ := finishAt_struct_part ρ hst hb hc hconst hne
    exact ⟨l, r, hi, lo, hchain ▸ h, hsp, by rw [hl, h0, sub_zero], by rw [hr, h0, add_zero]⟩

/-- The struct of the examples below, laid out: `struct packed { logic [7:0] top;
struct packed { logic [7:0] b; } inner; logic [7:0] bot; }`. -/
def threeByteStruct : AstNode :=
  { AstNode.new .struct with
    children := [
      { AstNode.new .structItem with str := "top", rangeLeft := 23, rangeRight := 16 },
      { AstNode.new .struct with
        str := "inner"
        children := [{ AstNode.new .structItem with str := "b", rangeLeft := 15, rangeRight := 8 }] },
      { AstNode.new .structItem with str := "bot", rangeLeft := 7, rangeRight := 0 }] }

theorem threeByteStruct_laid : LaidStruct threeByteStruct := by
  simp [LaidStruct, LaidList, laid_iff, span_eq, spanList, threeByteStruct, AstNode.new]

/-- The selector `[1]`. -/
def indexOne : AstNode := { AstNode.new .range with children := [mkconstInt 1] }


/-- `s.inner` with no selector reads exactly the bits of `inner`. -/
theorem expandDot_addressed_bits_inner :
    ∃ l r, expandDot threeByteStruct { AstNode.new .dot with str := "\\inner" } = some (l, r) ∧
      ∀ b, OwnsBit (threeByteStruct.children.getD 1 threeByteStruct) b ↔
        eval (fun _ => 0) r ≤ b ∧ b ≤ eval (fun _ => 0) l :=
  (@expandDot_addressed_bits (fun _ => 0) _ _ _ ["\\inner"] none threeByteStruct_laid
    (by simp) rfl rfl).1 rfl (.inr ⟨by decide, by decide⟩)

/-- `s.inner[1]` is bit 1 of `inner`, which spans `[15:8]`: bit 9.  `expand_dot` reads the
index as an array index and returns `[23:16]`, the bits of `top`. -/
theorem expandDot_struct_index_moves :
    LaidStruct threeByteStruct ∧
      span (threeByteStruct.children.getD 1 threeByteStruct) = some (15, 8) ∧
      ∃ l r, expandDot threeByteStruct
          { AstNode.new .dot with str := "\\inner", children := [indexOne] } = some (l, r) ∧
        eval (fun _ => 0) l = 23 ∧ eval (fun _ => 0) r = 16 := by
  refine ⟨threeByteStruct_laid, rfl, _, _, (@expandDot_chain (some indexOne)
    (by simp [indexOne, AstNode.new]) ["\\inner"] threeByteStruct _
    (threeByteStruct.children.getD 1 threeByteStruct) rfl rfl).trans rfl, ?_, ?_⟩ <;> decide

end UhdmPlugin
