/-
# Memories: `check_memories`

Before `simplify` runs on a unit, `process_design` calls `check_memories` on it.  It walks
the unit's descendants in the order `visitEachDescendantStatic` visits them -- a node, then
its children -- with a map `memories` from names to wires, and at each node

* a node named `\$readmemh` marks the memory `memories[children[1]->str]` with
  `force_convert = 0`; `operator[]` inserts a `nullptr` under a name it does not find, and
  the mark then dereferences it;
* a wire with exactly one packed and one unpacked range is registered under its name, after
  `log_assert(!memories.count(node->str))`;
* an identifier with no selector that names a registered memory with no `force_convert`
  attribute marks it with `force_convert = 1`.

The model keeps `memories` as a map from names to the registered wire's position in the
walk and the mark it carries (`Memories`); a failed `log_assert` or a dereferenced
`nullptr` is `none`.

* `checkMemories_marks`: when every `$readmemh` names a memory declared before it in the
  walk and no two memories share a name, the walk succeeds, and each memory ends with
  `force_convert = 0` when a `$readmemh` after it names it, otherwise with `1` when an
  identifier with no selector after it names it and it had no mark, otherwise with the mark
  it had.
* `checkMemories_order_dependent`: the marks depend on the order of the children: a use
  before the declaration is not seen, a `$readmemh` before it dereferences a `nullptr`, and
  two memories of one name in two generate blocks fail the `log_assert`.
-/
import UhdmPlugin.Design

namespace UhdmPlugin

open AstNode

/-! ## 1. The code -/

/-- `memories`: for each name, the position in the walk of the memory wire registered under
it, and the `force_convert` mark that wire carries. -/
abbrev Memories := String → Option (Nat × Option Int)

/-- A wire whose `packed_ranges` and `unpacked_ranges` hold one range each. -/
def isMemoryWire (n : AstNode) : Bool :=
  n.type = .wire ∧ (n.packedRanges.getD []).length = 1 ∧ (n.unpackedRanges.getD []).length = 1

/-- `add_force_convert_attribute(memories[x], v)`. -/
def Memories.mark (ms : Memories) (x : String) (v : Int) : Memories :=
  Function.update ms x ((ms x).map fun e => (e.1, some v))

/-- The `$readmemh` case: the memory `children[1]` names is marked `0`; a missing
`children[1]` or a name with no memory is undefined behaviour. -/
def readmemhStep (ms : Memories) (n : AstNode) : Option Memories :=
  if n.str = "\\$readmemh" then
    n.children[1]?.bind fun t => (ms t.str).map fun _ => ms.mark t.str 0
  else some ms

/-- The wire case: a memory wire is registered under its name, which must be new. -/
def wireStep (ms : Memories) (i : Nat) (n : AstNode) : Option Memories :=
  if isMemoryWire n then
    if (ms n.str).isSome then none
    else some (Function.update ms n.str (some (i, n.attr "force_convert")))
  else some ms

/-- The identifier case: an identifier with no selector marks the memory it names `1`,
unless that memory already has a mark. -/
def identStep (ms : Memories) (n : AstNode) : Memories :=
  if n.type = .identifier then
    match ms n.str with
    | some (_, none) => if n.children.isEmpty then ms.mark n.str 1 else ms
    | _ => ms
  else ms

/-- What `check_memories` does at the node at position `i` of the walk. -/
def memStep (ms : Memories) (i : Nat) (n : AstNode) : Option Memories :=
  (readmemhStep ms n).bind fun ms => (wireStep ms i n).map fun ms => identStep ms n

/-- The walk over the nodes from position `i`. -/
def memWalk : Memories → Nat → List AstNode → Option Memories
  | ms, _, [] => some ms
  | ms, i, n :: ns => (memStep ms i n).bind fun ms => memWalk ms (i + 1) ns

/-- `check_memories(module_node)`: the walk over the module's descendants, from an empty
`memories`. -/
def checkMemories (module : AstNode) : Option Memories :=
  memWalk (fun _ => none) 0 (descendants module)

/-- The mark `ms` gives the node at position `i`: the node is the memory registered under
its name when that memory's position is `i`. -/
def markAt (ms : Memories) (i : Nat) (n : AstNode) : Option Int :=
  match ms n.str with
  | some (p, some v) => if p = i then some v else none
  | _ => none

mutual
/-- The node at position `i` and its descendants, numbered from `i + 1`, with the marks of
`ms` written; and the position after them. -/
def markNode (ms : Memories) : Nat → AstNode → AstNode × Nat
  | i, n@⟨_, _, _, _, _, _, _, _, _, _, _, _, _, _, _, _, _, _, cs⟩ =>
    let n := match markAt ms i n with
      | some v => n.setAttr "force_convert" v
      | none => n
    let (cs, j) := markList ms (i + 1) cs
    ({ n with children := cs }, j)
/-- The nodes from position `i` on, with the marks of `ms` written. -/
def markList (ms : Memories) : Nat → List AstNode → List AstNode × Nat
  | i, [] => ([], i)
  | i, c :: cs =>
    let (c, j) := markNode ms i c
    let (cs, k) := markList ms j cs
    (c :: cs, k)
end

/-- `check_memories` on the unit: its descendants with the marks the walk leaves. -/
def checkMemoriesTree (module : AstNode) : Option AstNode :=
  (checkMemories module).map fun ms => { module with children := (markList ms 0 module.children).1 }

/-! ## 2. What a node does to the mark of a memory -/

/-- The memory a `$readmemh` node names. -/
def readmemhTarget (n : AstNode) : Option String :=
  if n.str = "\\$readmemh" then n.children[1]?.map (·.str) else none

/-- What the node `n` does to the mark `m` of the memory `x` registered before it: a
`$readmemh` naming `x` sets `0`, and then an identifier with no selector naming `x` sets
`1` when there is no mark. -/
def updateMark (x : String) (m : Option Int) (n : AstNode) : Option Int :=
  let m := if readmemhTarget n = some x then some 0 else m
  if n.type = .identifier ∧ n.str = x ∧ m.isNone ∧ n.children.isEmpty then some 1 else m

/-- The mark a memory ends with, from its mark `m` and the nodes after it: `0` when a
`$readmemh` names it, otherwise `1` when it has no mark and an identifier with no selector
names it, otherwise `m`. -/
def intendedMark (x : String) (m : Option Int) (rest : List AstNode) : Option Int :=
  if rest.any (readmemhTarget · = some x) then some 0
  else if m.isNone ∧ rest.any (fun n => n.type = .identifier ∧ n.str = x ∧ n.children.isEmpty)
  then some 1
  else m

/-- The marks the nodes after a memory leave are `intendedMark`. -/
theorem foldl_updateMark (x : String) :
    ∀ (l : List AstNode) (m : Option Int), l.foldl (updateMark x) m = intendedMark x m l
  | [], m => by simp [intendedMark]
  | n :: l, m => by
    rw [List.foldl_cons, foldl_updateMark x l]
    by_cases hr : readmemhTarget n = some x
    · simp [intendedMark, updateMark, hr]
    simp only [updateMark, if_neg hr]
    rcases m with _ | v
    · by_cases hi : n.type = .identifier ∧ n.str = x ∧ n.children.isEmpty
      · simp [intendedMark, hr, hi.1, hi.2.1, hi.2.2]
      · have hc : ¬(n.type = .identifier ∧ n.str = x ∧ (none : Option Int).isNone ∧
            n.children.isEmpty) := fun h => hi ⟨h.1, h.2.1, h.2.2.2⟩
        have hP : decide (n.type = .identifier ∧ n.str = x ∧ n.children.isEmpty = true) = false :=
          decide_eq_false hi
        rw [if_neg hc]
        simp only [intendedMark, List.any_cons, hP, Bool.false_or, hr, decide_False]
    · simp [intendedMark, hr]

/-- One node of the walk, when it does not fail: each registered memory's mark becomes
`updateMark`, and a memory wire is registered with its own mark. -/
def stepIdeal (ms : Memories) (i : Nat) (n : AstNode) : Memories := fun x =>
  if isMemoryWire n ∧ x = n.str then some (i, n.attr "force_convert")
  else (ms x).map fun e => (e.1, updateMark x e.2 n)

theorem Memories.mark_apply (ms : Memories) (x y : String) (v : Int) :
    ms.mark x v y = (ms y).map fun e => (e.1, if y = x then some v else e.2) := by
  by_cases h : y = x
  · subst h
    simp [Memories.mark]
  · simp [Memories.mark, Function.update_noteq h, h]

theorem identStep_apply (ms : Memories) (n : AstNode) (y : String) :
    identStep ms n y = (ms y).map fun e =>
      (e.1, if n.type = .identifier ∧ n.str = y ∧ e.2.isNone ∧ n.children.isEmpty then some 1
        else e.2) := by
  unfold identStep
  by_cases ht : n.type = .identifier
  · rw [if_pos ht]
    by_cases hy : n.str = y
    · subst hy
      rcases h : ms n.str with _ | ⟨p, _ | v⟩ <;> by_cases hc : n.children.isEmpty <;>
        simp [h, ht, hc, Memories.mark]
    · rcases h : ms n.str with _ | ⟨p, _ | v⟩ <;> simp only [h] <;> (try split_ifs) <;>
        simp [Memories.mark_apply, hy, Ne.symm hy]
  · simp [ht]

/-- `check_memories` at a node whose `$readmemh` names a registered memory and whose memory
wire, if it is one, is new: the step `stepIdeal` describes. -/
theorem memStep_eq {ms : Memories} {i : Nat} {n : AstNode}
    (hr : n.str = "\\$readmemh" → ∃ t, readmemhTarget n = some t ∧ (ms t).isSome)
    (hw : isMemoryWire n → ms n.str = none) :
    memStep ms i n = some (stepIdeal ms i n) := by
  have h₁ : readmemhStep ms n = some fun y =>
      (ms y).map fun e => (e.1, if readmemhTarget n = some y then some 0 else e.2) := by
    by_cases hs : n.str = "\\$readmemh"
    · obtain ⟨t, ht, hms⟩ := hr hs
      rw [readmemhTarget, if_pos hs] at ht
      obtain ⟨c, hc, rfl⟩ := Option.map_eq_some'.1 ht
      obtain ⟨e, he⟩ := Option.isSome_iff_exists.1 hms
      simp only [readmemhStep, readmemhTarget, if_pos hs, hc, Option.some_bind, he,
        Option.map_some', Option.map_some', Option.some.injEq]
      funext y
      rw [Memories.mark_apply]
      by_cases hy : y = c.str
      · simp [hy]
      · simp [hy, Ne.symm hy]
    · simp [readmemhStep, readmemhTarget, hs]
  have hw' : isMemoryWire n → (ms n.str).map (fun e =>
      (e.1, if readmemhTarget n = some n.str then some 0 else e.2)) = none := fun h => by
    rw [hw h, Option.map_none']
  rw [memStep, h₁, Option.some_bind, wireStep]
  by_cases hm : isMemoryWire n
  · simp only [if_pos hm, hw' hm, Option.isSome_none, Bool.false_eq_true, if_false,
      Option.map_some', Option.some.injEq]
    funext y
    rw [identStep_apply, stepIdeal]
    by_cases hy : y = n.str
    · subst hy
      have ht : n.type ≠ .identifier := fun h => by simp [isMemoryWire, h] at hm
      simp [hm, ht]
    · rw [Function.update_noteq hy, if_neg fun h => hy h.2, Option.map_map]
      rfl
  · simp only [if_neg hm, Option.map_some', Option.some.injEq]
    funext y
    rw [identStep_apply, stepIdeal, if_neg fun h => hm h.1, Option.map_map]
    rfl

/-! ## 3. The walk -/

/-- The walk when no node fails. -/
def idealWalk : Memories → Nat → List AstNode → Memories
  | ms, _, [] => ms
  | ms, i, n :: ns => idealWalk (stepIdeal ms i n) (i + 1) ns

theorem idealWalk_append (ms : Memories) (i : Nat) (l l' : List AstNode) :
    idealWalk ms i (l ++ l') = idealWalk (idealWalk ms i l) (i + l.length) l' := by
  induction l generalizing ms i with
  | nil => rfl
  | cons n l ih =>
    rw [List.cons_append, idealWalk, idealWalk, ih, List.length_cons, Nat.add_assoc, Nat.add_comm 1]

/-- A walk over nodes that declare no memory named `x` carries the entry of `x` through
`updateMark`. -/
theorem idealWalk_apply_of_undeclared {x : String} :
    ∀ (l : List AstNode) (ms : Memories) (i : Nat), (∀ w ∈ l, isMemoryWire w → w.str ≠ x) →
      idealWalk ms i l x = (ms x).map fun e => (e.1, l.foldl (updateMark x) e.2)
  | [], ms, _, _ => by simp [idealWalk]
  | n :: l, ms, i, h => by
    rw [idealWalk, idealWalk_apply_of_undeclared l _ _ fun w hw => h w (List.mem_cons_of_mem _ hw),
      stepIdeal, if_neg fun hn => h n (List.mem_cons_self _ _) hn.1 hn.2.symm, Option.map_map]
    rfl

/-- After a walk, a name has a memory when it had one before or the walk declares one. -/
theorem idealWalk_isSome {x : String} : ∀ (l : List AstNode) (ms : Memories) (i : Nat),
    (idealWalk ms i l x).isSome ↔ (ms x).isSome ∨ ∃ w ∈ l, isMemoryWire w ∧ w.str = x
  | [], ms, _ => by simp [idealWalk]
  | n :: l, ms, i => by
    rw [idealWalk, idealWalk_isSome l, stepIdeal]
    by_cases hn : isMemoryWire n ∧ x = n.str
    · simp only [if_pos hn, Option.isSome_some, true_or, true_iff]
      exact .inr ⟨n, List.mem_cons_self _ _, hn.1, hn.2.symm⟩
    · rw [if_neg hn, Option.isSome_map']
      constructor
      · rintro (h | ⟨w, hw, hmw, rfl⟩)
        · exact .inl h
        · exact .inr ⟨w, List.mem_cons_of_mem _ hw, hmw, rfl⟩
      · rintro (h | ⟨w, hw, hmw, rfl⟩)
        · exact .inl h
        · rcases List.mem_cons.1 hw with rfl | hw
          · exact absurd ⟨hmw, rfl⟩ hn
          · exact .inr ⟨w, hw, hmw, rfl⟩

/-- The walk of `check_memories` succeeds, as `idealWalk`, when at every node a `$readmemh`
names a registered memory and a memory wire is new. -/
theorem memWalk_eq : ∀ (rest : List AstNode) (ms : Memories) (i : Nat),
    (∀ pre n post, rest = pre ++ n :: post →
      (n.str = "\\$readmemh" → ∃ t, readmemhTarget n = some t ∧ (idealWalk ms i pre t).isSome) ∧
      (isMemoryWire n → idealWalk ms i pre n.str = none)) →
    memWalk ms i rest = some (idealWalk ms i rest)
  | [], _, _, _ => rfl
  | n :: rest, ms, i, h => by
    obtain ⟨hr, hw⟩ := h [] n rest rfl
    have hr' : n.str = "\\$readmemh" → ∃ t, readmemhTarget n = some t ∧ (ms t).isSome := hr
    have hw' : isMemoryWire n → ms n.str = none := hw
    rw [memWalk, memStep_eq hr' hw', Option.some_bind, idealWalk]
    exact memWalk_eq rest _ _ fun pre n' post hp => h (n :: pre) n' post (by rw [hp]; rfl)

/-- When every `$readmemh` names a memory declared before it in the walk and no two memory
wires share a name, `check_memories` succeeds, and the memory `w` declared after the nodes
`pre` ends with the mark `intendedMark` reads off the nodes `post` after it. -/
theorem checkMemories_marks {module : AstNode}
    (huniq : (((descendants module).filter isMemoryWire).map (·.str)).Nodup)
    (hread : ∀ pre n post, descendants module = pre ++ n :: post → n.str = "\\$readmemh" →
      ∃ t, readmemhTarget n = some t ∧ ∃ w ∈ pre, isMemoryWire w ∧ w.str = t) :
    ∃ ms, checkMemories module = some ms ∧
      ∀ pre w post, descendants module = pre ++ w :: post → isMemoryWire w →
        ms w.str = some (pre.length, intendedMark w.str (w.attr "force_convert") post) := by
  have hone : ∀ pre w post, descendants module = pre ++ w :: post → isMemoryWire w →
      ∀ v ∈ pre ++ post, isMemoryWire v → v.str ≠ w.str := by
    intro pre w post hd hw v hv hmv heq
    rw [hd] at huniq
    simp only [List.filter_append, List.filter_cons, hw, if_true, List.map_append, List.map_cons,
      List.nodup_append, List.nodup_cons] at huniq
    obtain ⟨-, ⟨hB, -⟩, hdisj⟩ := huniq
    rcases List.mem_append.1 hv with hv | hv
    · exact hdisj (List.mem_map.2 ⟨v, List.mem_filter.2 ⟨hv, hmv⟩, rfl⟩)
        (heq ▸ List.mem_cons_self _ _)
    · exact hB (heq ▸ List.mem_map.2 ⟨v, List.mem_filter.2 ⟨hv, hmv⟩, rfl⟩)
  refine ⟨_, memWalk_eq _ _ _ fun pre n post hd => ⟨fun hs => ?_, fun hm => ?_⟩, ?_⟩
  · obtain ⟨t, ht, w, hw, hmw, rfl⟩ := hread pre n post hd hs
    exact ⟨_, ht, (idealWalk_isSome pre _ 0).2 (.inr ⟨w, hw, hmw, rfl⟩)⟩
  · rw [← Option.not_isSome_iff_eq_none, idealWalk_isSome]
    rintro (h | ⟨w, hw, hmw, heq⟩)
    · exact absurd h (by simp)
    · exact hone pre n post hd hm w (List.mem_append_left _ hw) hmw heq
  · intro pre w post hd hw
    rw [hd, idealWalk_append, idealWalk, idealWalk_apply_of_undeclared post _ _
      fun v hv hmv => hone pre w post hd hw v (List.mem_append_right _ hv) hmv, stepIdeal,
      if_pos ⟨hw, rfl⟩, Option.map_some', foldl_updateMark, Nat.zero_add]

/-! ## 4. The marks depend on the order of the children -/

/-- `logic [7:0] name [0:3]`: one packed and one unpacked range. -/
def memoryWire (name : String) : AstNode :=
  { AstNode.new .wire with
    str := name, packedRanges := some [makeRange 7 0], unpackedRanges := some [makeRange 0 3] }

/-- `$readmemh("mem.hex", name)`. -/
def readmemhCall (name : String) : AstNode :=
  { AstNode.new .tcall with
    str := "\\$readmemh"
    children := [{ AstNode.new .constant with str := "mem.hex" }, identNode name] }

/-- The module `top` with the children `cs`. -/
def moduleWith (cs : List AstNode) : AstNode :=
  { AstNode.new .module with str := "\\top", children := cs }

/-- The generate block `name` holding `cs`. -/
def genblockWith (name : String) (cs : List AstNode) : AstNode :=
  { AstNode.new .genblock with str := name, children := cs }

/-- `top` declaring the memory `mem` and then using it with no selector: the walk succeeds,
and `mem` ends with what `intendedMark` reads off the use. -/
theorem checkMemories_marks_memThenUse :
    ∃ ms, checkMemories (moduleWith [memoryWire "\\mem", identNode "\\mem"]) = some ms ∧
      ∀ pre w post, descendants (moduleWith [memoryWire "\\mem", identNode "\\mem"]) =
          pre ++ w :: post → isMemoryWire w →
        ms w.str = some (pre.length, intendedMark w.str (w.attr "force_convert") post) :=
  have hno : ∀ n ∈ descendants (moduleWith [memoryWire "\\mem", identNode "\\mem"]),
      n.str ≠ "\\$readmemh" := by decide
  checkMemories_marks (by decide) fun _ n _ hd hs =>
    absurd hs (hno n (hd ▸ List.mem_append_right _ (List.mem_cons_self _ _)))

/-- The memory `mem` of `top` used with no selector before its declaration keeps no mark,
and after it gets `force_convert = 1`; a `$readmemh` of it before the declaration reads a
`nullptr`, and after it marks it `0`; two memories `mem` in two generate blocks fail the
`log_assert`. -/
theorem checkMemories_order_dependent :
    (checkMemories (moduleWith [identNode "\\mem", memoryWire "\\mem"])).map (· "\\mem") =
      some (some (1, none)) ∧
    (checkMemories (moduleWith [memoryWire "\\mem", identNode "\\mem"])).map (· "\\mem") =
      some (some (0, some 1)) ∧
    (checkMemories (moduleWith [readmemhCall "\\mem", memoryWire "\\mem"])).isNone ∧
    (checkMemories (moduleWith [memoryWire "\\mem", readmemhCall "\\mem"])).map (· "\\mem") =
      some (some (0, some 0)) ∧
    (checkMemories (moduleWith [genblockWith "\\g1" [memoryWire "\\mem"],
      genblockWith "\\g2" [memoryWire "\\mem"]])).isNone := by
  decide

end UhdmPlugin
