import Mathlib.Data.List.Basic
import Mathlib.Logic.Function.Basic
import MethodFlow.Proofs.Ssa.Numbering

/-!
# What the steps of construction record

A builder is described by what it has recorded: the sites of its versions in
the order in which they were made, the reads that have been listed with them,
and the blocks as far as they are done (`Ssa.Builder.Shows`).  Each operation
adds to one of these.  A version lists a read at the time of the read, so the
list of a version is the part of all reads so far that concerns it
(`Ssa.rows_addUse`); a new version has no reads yet, because what is read is
on a stack, and what is on a stack has been made (`Ssa.rows_concat`).

The stacks come back.  A block says which variables it has pushed, and popping
one version of each, in whatever order, restores the stacks that it has found
(`Ssa.Pushed`).

## Main results

* `Ssa.Builder.Shows.read`, `Ssa.Builder.Shows.renameInstruction`: what an
  instruction reads and defines.
* `Ssa.Builder.Shows.renameCode`: the code of a block is renamed as by
  environments.
* `Ssa.Builder.Shows.addOperands`: what a block adds to its successors.
-/

namespace MethodFlow

theorem modify_append_cons {α : Type} (l : List α) (a : α) (rest : List α) (f : α → α) :
    (l ++ a :: rest).modify l.length f = l ++ f a :: rest := by
  induction l with
  | nil => rfl
  | cons b l ih => simpa [List.modify_cons] using ih

/-- A change at one place of a list of the values of a function is a change of
the function. -/
theorem modify_map_range {α : Type} (f : Nat → α) (g : α → α) (size n : Nat) :
    ((List.range size).map f).modify n g =
      (List.range size).map (Function.update f n (g (f n))) := by
  refine List.ext_getElem? fun k => ?_
  rw [List.getElem?_modify, List.getElem?_map, List.getElem?_map]
  by_cases hk : k < size
  · rw [List.getElem?_range hk]
    by_cases hkn : n = k
    · subst hkn
      simp
    · simp [hkn, Function.update_of_ne (Ne.symm hkn)]
  · rw [List.getElem?_eq_none (by simpa using hk)]
    rfl

namespace Ssa

variable {c : Cfg} {b b' b'' : Builder} {blocks : NodeId → SsaBlock}
  {entries : List (Variable × DefSite)} {reads : List (SsaId × UseSite)} {env : Env}
  {x : Variable} {id k n p : Nat}

/-! ## Rows of the table -/

/-- The table of versions at the given sites that have been read at the given
places. -/
def rows (entries : List (Variable × DefSite)) (reads : List (SsaId × UseSite)) : List SsaVar :=
  entries.zipIdx.map fun (e, id) =>
    ⟨id, e.1, versionOf entries id e.1, e.2,
      reads.filterMap fun r => if r.1 = id then some r.2 else none⟩

theorem getElem?_rows (entries : List (Variable × DefSite)) (reads : List (SsaId × UseSite))
    (id : Nat) : (rows entries reads)[id]? = entries[id]?.map fun e =>
      ⟨id, e.1, versionOf entries id e.1, e.2,
        reads.filterMap fun r => if r.1 = id then some r.2 else none⟩ := by
  rw [rows, List.getElem?_map, List.getElem?_zipIdx, Option.map_map, Nat.zero_add]
  rfl

@[simp] theorem length_rows : (rows entries reads).length = entries.length := by simp [rows]

/-- A new version has the next number of its variable, and no reads. -/
theorem rows_concat (h : ∀ r ∈ reads, r.1 < entries.length) (x : Variable) (site : DefSite) :
    rows (entries ++ [(x, site)]) reads =
      rows entries reads ++
        [⟨entries.length, x, entries.countP fun e => e.1 == x, site, []⟩] := by
  have hnone : (reads.filterMap fun r => if r.1 = entries.length then some r.2 else none) = [] :=
    List.filterMap_eq_nil_iff.2 fun r hr => if_neg (Nat.ne_of_lt (h r hr))
  have hearlier : ∀ e ∈ entries.zipIdx,
      versionOf (entries ++ [(x, site)]) e.2 e.1.1 = versionOf entries e.2 e.1.1 := by
    intro e he
    have hlt := List.snd_lt_of_mem_zipIdx he
    rw [versionOf, List.take_append_of_le_length (Nat.le_of_lt hlt)]
    rfl
  rw [rows, List.zipIdx_append, List.map_append, Nat.zero_add, List.zipIdx_singleton,
    List.map_singleton]
  refine congrArg₂ _ (List.map_congr_left fun e he => ?_) ?_
  · dsimp only
    rw [hearlier e he]
  · simp only [hnone, versionOf, List.take_left']

/-- A version that is read lists the place. -/
theorem rows_addUse (id : SsaId) (site : UseSite) :
    ((rows entries reads).modify id fun v => v.addUse site) =
      rows entries (reads ++ [(id, site)]) := by
  refine List.ext_getElem? fun k => ?_
  rw [List.getElem?_modify, getElem?_rows, getElem?_rows]
  cases entries[k]? with
  | none => rfl
  | some e =>
      by_cases hk : id = k
      · subst hk
        simp [SsaVar.addUse, List.filterMap_append]
      · simp [hk, List.filterMap_append]

/-! ## Stacks -/

/-- Takes the current versions of the variables away. -/
def popAll (pushed : List Variable) (held : SortedMap Variable (List SsaId)) :
    SortedMap Variable (List SsaId) :=
  pushed.foldl (fun s x => s.modify x List.tail) held

theorem get?_popAll (pushed : List Variable) (held : SortedMap Variable (List SsaId))
    (x : Variable) :
    (popAll pushed held).get? x = (held.get? x).map (List.drop (pushed.count x)) := by
  induction pushed generalizing held with
  | nil => exact Option.map_id'.symm
  | cons y rest ih =>
      rw [popAll, List.foldl_cons]
      refine (ih (held.modify y List.tail)).trans ?_
      rw [SortedMap.get?_modify]
      by_cases hxy : x = y
      · subst hxy
        rw [if_pos rfl, Option.map_map, List.count_cons_self]
        refine congrArg (Option.map · _) (funext fun stack => ?_)
        rw [Function.comp_apply, List.drop_tail]
      · rw [if_neg hxy, List.count_cons_of_ne (Ne.symm hxy)]

/-- Popping the variables that were pushed restores the stacks. -/
def Pushed (b b' : Builder) (pushed : List Variable) : Prop :=
  popAll pushed b'.versionStacks = b.versionStacks

theorem Pushed.of_eq (h : b'.versionStacks = b.versionStacks) : Pushed b b' [] := h

theorem Pushed.trans {pushed pushed' : List Variable} (h : Pushed b b' pushed)
    (h' : Pushed b' b'' pushed') : Pushed b b'' (pushed ++ pushed') := by
  refine SortedMap.ext_get? fun x => ?_
  rw [← h, ← h', get?_popAll, get?_popAll, get?_popAll, Option.map_map, List.count_append]
  refine congrArg (Option.map · _) (funext fun stack => ?_)
  rw [Function.comp_apply, List.drop_drop, Nat.add_comm]

theorem pushed_push (b : Builder) (x : Variable) (id : SsaId) : Pushed b (b.push x id) [x] := by
  refine SortedMap.ext_get? fun y => ?_
  rw [get?_popAll, Builder.push, SortedMap.get?_modify]
  by_cases hyx : y = x
  · subst hyx
    rw [if_pos rfl, Option.map_map, List.count_singleton_self]
    exact Option.map_id'
  · rw [if_neg hyx, List.count_singleton, if_neg (by simpa using Ne.symm hyx)]
    exact Option.map_id'

theorem leave_eq (b : Builder) (pushed : List Variable) :
    b.leave pushed = { b with versionStacks := popAll pushed b.versionStacks } := by
  induction pushed generalizing b with
  | nil => rfl
  | cons x rest ih => exact ih (b.pop x)

/-- The current versions are those of an environment. -/
def Tops (b : Builder) (env : Env) : Prop := ∀ x, b.current? x = env.get? x

theorem Tops.of_eq (h : Tops b env) (hstacks : b'.versionStacks = b.versionStacks) :
    Tops b' env := by
  intro x
  rw [← h x, Builder.current?, hstacks]
  rfl

/-- Every variable of the code has a stack. -/
def Keyed (c : Cfg) (b : Builder) : Prop := ∀ x ∈ origins c, b.versionStacks.contains x = true

theorem Keyed.of_eq (h : Keyed c b) (hstacks : b'.versionStacks = b.versionStacks) :
    Keyed c b' := by
  rw [Keyed, hstacks]
  exact h

theorem contains_popAll (pushed : List Variable) (held : SortedMap Variable (List SsaId))
    (x : Variable) : (popAll pushed held).contains x = held.contains x := by
  rw [SortedMap.contains, SortedMap.contains, get?_popAll, Option.isSome_map]

theorem Pushed.keyed_iff {pushed : List Variable} (h : Pushed b b' pushed) :
    Keyed c b' ↔ Keyed c b := by
  have hstacks : popAll pushed b'.versionStacks = b.versionStacks := h
  simp only [Keyed, ← hstacks, contains_popAll]

theorem Tops.push (h : Tops b env) (hx : b.versionStacks.contains x = true) (id : SsaId) :
    Tops (b.push x id) (env.insert x id) := by
  intro y
  rw [Builder.current?, Builder.push, SortedMap.get?_modify, SortedMap.get?_insert]
  by_cases hyx : y = x
  · obtain ⟨stack, hstack⟩ := Option.isSome_iff_exists.1 hx
    rw [if_pos hyx, if_pos hyx, hstack]
    rfl
  · rw [if_neg hyx, if_neg hyx, ← h y]
    rfl

/-! ## Definitions and reads of code -/

theorem codeDefs_cons (n k : Nat) (i : Instruction) (rest : List Instruction) :
    codeDefs n k (i :: rest) =
      (i.op.defined.map fun x => (x, .instruction n k)).toList ++ codeDefs n (k + 1) rest := by
  rw [codeDefs, List.zipIdx_cons, List.filterMap_cons]
  dsimp only
  cases i.op.defined <;> rfl

theorem codeReads_cons (n k : Nat) (i : SsaInstruction) (rest : List SsaInstruction) :
    codeReads n k (i :: rest) =
      (i.uses.map fun id => (id, .instruction n k)) ++ codeReads n (k + 1) rest := by
  rw [codeReads, List.zipIdx_cons, List.flatMap_cons]
  rfl

/-- A phi node with the operand for a predecessor that ends with the given
versions. -/
def extend (env : Env) (predecessor : NodeId) (phi : Phi) : Phi :=
  match env.get? phi.origin with
  | some id => phi.addOperand ⟨id, predecessor⟩
  | none => phi

theorem phiReads_cons (env : Env) (n k : Nat) (phi : Phi) (rest : List Phi) :
    phiReads env n k (phi :: rest) =
      ((env.get? phi.origin).map fun id => (id, .phi n k)).toList ++
        phiReads env n (k + 1) rest := by
  rw [phiReads, List.zipIdx_cons, List.filterMap_cons]
  dsimp only
  cases env.get? phi.origin <;> rfl

/-- Where a table without repetitions goes on after some entries, the next one
has the next number. -/
theorem idxOf?_of_prefix {table rest : List (Variable × DefSite)} {e : Variable × DefSite}
    (htable : table.Nodup) (h : entries ++ e :: rest <+: table) :
    table.idxOf? e = some entries.length := by
  have hlt : entries.length < (entries ++ e :: rest).length := by simp
  have hget : table[entries.length]? = some e := by
    rw [List.prefix_iff_getElem?.1 h _ hlt, List.getElem_append_right (Nat.le_refl _)]
    simp
  obtain ⟨id, hid⟩ :=
    Option.isSome_iff_exists.1 (List.isSome_idxOf?.2 (List.mem_of_getElem? hget))
  have hsame := (List.getElem?_inj (List.getElem?_eq_some_iff.1 hget).1 htable).1
    (hget.trans (getElem?_of_idxOf? hid).symm)
  rw [hid, hsame]

namespace Builder

/-! ## Single operations -/

/-- What a builder has recorded. -/
structure Shows (c : Cfg) (b : Builder) (blocks : NodeId → SsaBlock)
    (entries : List (Variable × DefSite)) (reads : List (SsaId × UseSite)) : Prop where
  method : b.form.method = c.method
  blocks : b.form.blocks = c.view.nodes.map blocks
  table : b.form.table = rows entries reads
  /-- The next version of a variable has the number of those made so far. -/
  next : ∀ x, (b.next.get? x).getD 0 = entries.countP fun e => e.1 == x
  /-- What is on a stack has been made. -/
  live : ∀ {x : Variable} {stack : List SsaId}, b.versionStacks.get? x = some stack →
    ∀ id ∈ stack, id < entries.length
  /-- What has been read has been made. -/
  made : ∀ r ∈ reads, r.1 < entries.length

namespace Shows

theorem lt_of_current? (h : Shows c b blocks entries reads) (hid : b.current? x = some id) :
    id < entries.length := by
  obtain ⟨stack, hstack, hhead⟩ := Option.bind_eq_some_iff.1 hid
  exact h.live hstack id (List.mem_of_mem_head? hhead)

theorem fst_newVersion (h : Shows c b blocks entries reads) (x : Variable) (site : DefSite) :
    (b.newVersion x site).1 = entries.length := by
  rw [newVersion, h.table, length_rows]

theorem newVersion (h : Shows c b blocks entries reads) (x : Variable) (site : DefSite) :
    Shows c (b.newVersion x site).2 blocks (entries ++ [(x, site)]) reads where
  method := h.method
  blocks := h.blocks
  table := by
    rw [rows_concat h.made, ← h.next x]
    show b.form.table ++ [⟨b.form.table.length, _, _, _, _⟩] = _
    rw [h.table, length_rows]
  next := by
    intro y
    show ((b.next.insert x _).get? y).getD 0 = _
    rw [SortedMap.get?_insert, List.countP_append, ← h.next y]
    by_cases hyx : y = x
    · subst hyx
      simp
    · simp [hyx, Ne.symm hyx]
  live := by
    intro y stack hstack id hid
    rw [List.length_append]
    exact Nat.lt_add_right _ (h.live hstack id hid)
  made := by
    intro r hr
    rw [List.length_append]
    exact Nat.lt_add_right _ (h.made r hr)

theorem push (h : Shows c b blocks entries reads) (hid : id < entries.length) (x : Variable) :
    Shows c (b.push x id) blocks entries reads :=
  { h with
    live := by
      intro y stack hstack k hk
      rw [Builder.push, SortedMap.get?_modify] at hstack
      split at hstack
      · obtain ⟨rest, hrest, rfl⟩ := Option.map_eq_some_iff.1 hstack
        rcases List.mem_cons.1 hk with rfl | hk
        · exact hid
        · exact h.live hrest k hk
      · exact h.live hstack k hk }

theorem addUse (h : Shows c b blocks entries reads) (hid : id < entries.length)
    (site : UseSite) : Shows c (b.addUse id site) blocks entries (reads ++ [(id, site)]) :=
  { h with
    table := by
      rw [← rows_addUse, ← h.table]
      rfl
    made := by
      intro r hr
      rcases List.mem_append.1 hr with hr | hr
      · exact h.made r hr
      · rw [List.mem_singleton.1 hr]
        exact hid }

theorem modifyBlock (h : Shows c b blocks entries reads) (n : NodeId) (f : SsaBlock → SsaBlock) :
    Shows c (b.modifyBlock n f) (Function.update blocks n (f (blocks n))) entries reads :=
  { h with
    blocks := by
      rw [View.nodes, ← modify_map_range, ← View.nodes, ← h.blocks]
      rfl }

theorem getElem?_blocks (h : Shows c b blocks entries reads) (hn : n < c.view.size) :
    b.form.blocks[n]? = some (blocks n) := by
  rw [h.blocks, List.getElem?_map, View.nodes, List.getElem?_range hn]
  rfl

/-! ## Instructions -/

/-- Reading lists the place with the current versions. -/
theorem read (h : Shows c b blocks entries reads) (site : UseSite) (used : List Variable) :
    (b.read site used).1 = used.filterMap b.current? ∧
      Shows c (b.read site used).2 blocks entries
        (reads ++ (used.filterMap b.current?).map fun id => (id, site)) ∧
      (b.read site used).2.versionStacks = b.versionStacks := by
  induction used generalizing b reads with
  | nil => exact ⟨rfl, by simpa [Builder.read] using h, rfl⟩
  | cons x rest ih =>
      rw [Builder.read]
      cases hid : b.current? x with
      | none =>
          rw [List.filterMap_cons_none hid]
          exact ih h
      | some id =>
          obtain ⟨hids, hshows, hstacks⟩ := ih (h.addUse (h.lt_of_current? hid) site)
          rw [List.filterMap_cons_some hid, List.map_cons, List.append_cons]
          exact ⟨congrArg _ hids, hshows, hstacks⟩

variable {table : List (Variable × DefSite)} {i : Instruction}

/-- An instruction is renamed as by environments, provided that the table has
its definition at the next number. -/
theorem renameInstruction (h : Shows c b blocks entries reads) (htops : Tops b env)
    (hkey : ∀ x, i.op.defined = some x → b.versionStacks.contains x = true)
    (hnumber : ∀ x, i.op.defined = some x →
      table.idxOf? (x, .instruction n k) = some entries.length) :
    Shows c (b.renameInstruction n k i).2
        (Function.update blocks n { blocks n with
          code := (blocks n).code.modify k fun j => { j with
            defined := i.op.defined.bind fun x => table.idxOf? (x, .instruction n k)
            uses := i.op.used.filterMap env.get? } })
        (entries ++ (i.op.defined.map fun x => (x, .instruction n k)).toList)
        (reads ++ (i.op.used.filterMap env.get?).map fun id => (id, .instruction n k)) ∧
      Tops (b.renameInstruction n k i).2 (behind table n k env i) ∧
      Pushed b (b.renameInstruction n k i).2 (b.renameInstruction n k i).1 := by
  obtain ⟨huses, hread, hstacks⟩ := h.read (.instruction n k) i.op.used
  have hcurrent : b.current? = env.get? := funext htops
  rw [hcurrent] at huses hread
  unfold Builder.renameInstruction
  dsimp only
  rw [huses]
  cases hdefined : i.op.defined with
  | none =>
      rw [behind_of_undefined hdefined, Option.map_none, Option.toList_none, List.append_nil]
      exact ⟨hread.modifyBlock n _, htops.of_eq hstacks, .of_eq hstacks⟩
  | some x =>
      have hid := hnumber x hdefined
      have hcontains := hkey x hdefined
      rw [← hstacks] at hcontains
      rw [Option.filter_some_pos hcontains, behind_of_defined hdefined hid, Option.bind_some, hid]
      dsimp only
      rw [hread.fst_newVersion]
      refine ⟨?_, ?_, ?_⟩
      · exact ((hread.newVersion x _).push (by simp) x).modifyBlock n _
      · exact (htops.of_eq hstacks).push hcontains entries.length
      · exact (Pushed.of_eq hstacks).trans (pushed_push _ x entries.length)

/-- **Code is renamed** as by environments, provided that the table goes on
with the definitions of the code. -/
theorem renameCode {code : List Instruction} {done : List SsaInstruction}
    (h : Shows c b blocks entries reads) (htops : Tops b env) (hkeyed : Keyed c b)
    (horigins : ∀ i ∈ code, ∀ x, i.op.defined = some x → x ∈ origins c)
    (htable : table.Nodup) (hbegins : entries ++ codeDefs n k code <+: table)
    (hcode : (blocks n).code = done ++ code.map fun i => ⟨i, none, []⟩) (hk : done.length = k) :
    Shows c (Builder.renameCode n k code b).2
        (Function.update blocks n { blocks n with
          code := done ++ (Ssa.renameCode table n k env code).1 })
        (entries ++ codeDefs n k code)
        (reads ++ codeReads n k (Ssa.renameCode table n k env code).1) ∧
      Tops (Builder.renameCode n k code b).2 (Ssa.renameCode table n k env code).2 ∧
      Pushed b (Builder.renameCode n k code b).2 (Builder.renameCode n k code b).1 := by
  induction code generalizing b blocks entries reads env done k with
  | nil =>
      have hblocks : Function.update blocks n { blocks n with code := done ++ [] } = blocks := by
        rw [← List.map_nil, ← hcode]
        exact Function.update_eq_self n blocks
      refine ⟨?_, htops, .of_eq rfl⟩
      show Shows c b (Function.update blocks n { blocks n with code := done ++ [] })
        (entries ++ []) (reads ++ [])
      rw [hblocks, List.append_nil, List.append_nil]
      exact h
  | cons i rest ih =>
      rw [codeDefs_cons] at hbegins
      have hnumber : ∀ x, i.op.defined = some x →
          table.idxOf? (x, .instruction n k) = some entries.length := by
        intro x hx
        rw [hx] at hbegins
        exact idxOf?_of_prefix htable hbegins
      obtain ⟨hshows, htops', hpushed⟩ := h.renameInstruction htops
        (fun x hx => hkeyed x (horigins i List.mem_cons_self x hx)) hnumber
      -- The instruction itself is the first that is not renamed yet.
      have hfirst : (blocks n).code.modify k (fun j => { j with
            defined := i.op.defined.bind fun x => table.idxOf? (x, .instruction n k)
            uses := i.op.used.filterMap env.get? }) =
          done ++ ⟨i, i.op.defined.bind fun x => table.idxOf? (x, .instruction n k),
            i.op.used.filterMap env.get?⟩ :: rest.map fun i => ⟨i, none, []⟩ := by
        rw [hcode, List.map_cons, ← hk, modify_append_cons]
      rw [hfirst] at hshows
      rw [← List.append_assoc] at hbegins
      have hdone : (done ++ [(⟨i, i.op.defined.bind fun x => table.idxOf? (x, .instruction n k),
          i.op.used.filterMap env.get?⟩ : SsaInstruction)]).length = k + 1 := by simp [hk]
      have hrest := ih hshows htops' (hpushed.keyed_iff.2 hkeyed)
        (fun j hj => horigins j (List.mem_cons_of_mem i hj)) hbegins
        (by rw [Function.update_self, List.append_cons]) hdone
      obtain ⟨hshows', htops'', hpushed'⟩ := hrest
      rw [Function.update_self, Function.update_idem] at hshows'
      rw [renameCode_cons, codeReads_cons, codeDefs_cons]
      refine ⟨?_, htops'', hpushed.trans hpushed'⟩
      simp only [List.append_assoc, List.singleton_append] at hshows'
      exact hshows'

/-! ## Operands of phi nodes -/

/-- The phi node at an index gets its operand. -/
theorem addOperand {phi : Phi} {done rest : List Phi} (h : Shows c b blocks entries reads)
    (htops : Tops b env) (hphis : (blocks n).phis = done ++ phi :: rest) :
    Shows c (b.addOperand p n done.length phi)
        (Function.update blocks n { blocks n with phis := done ++ extend env p phi :: rest })
        entries
        (reads ++ ((env.get? phi.origin).map fun id => (id, .phi n done.length)).toList) ∧
      (b.addOperand p n done.length phi).versionStacks = b.versionStacks := by
  have hcurrent := htops phi.origin
  unfold Builder.addOperand extend
  cases hid : env.get? phi.origin with
  | none =>
      have hsame : Function.update blocks n { blocks n with phis := (blocks n).phis } = blocks :=
        Function.update_eq_self n blocks
      rw [hcurrent.trans hid]
      dsimp only
      rw [← hphis, hsame, Option.map_none, Option.toList_none, List.append_nil]
      exact ⟨h, rfl⟩
  | some id =>
      have hmodify := modify_append_cons done phi rest fun phi => phi.addOperand ⟨id, p⟩
      rw [← hphis] at hmodify
      rw [hcurrent.trans hid]
      dsimp only
      rw [← hmodify]
      exact ⟨(h.modifyBlock n _).addUse (h.lt_of_current? (hcurrent.trans hid)) _, rfl⟩

/-- A block adds an operand to each phi node of a successor for which it has a
current version, and the version lists it. -/
theorem addOperands_from {k : Nat} {done rest : List Phi} (h : Shows c b blocks entries reads)
    (htops : Tops b env) (hphis : (blocks n).phis = done ++ rest) (hk : done.length = k) :
    Shows c ((rest.zipIdx k).foldl (fun b (phi, index) => b.addOperand p n index phi) b)
        (Function.update blocks n { blocks n with phis := done ++ rest.map (extend env p) })
        entries (reads ++ phiReads env n k rest) ∧
      ((rest.zipIdx k).foldl (fun b (phi, index) => b.addOperand p n index phi) b).versionStacks =
        b.versionStacks := by
  induction rest generalizing b blocks reads done k with
  | nil =>
      rw [List.map_nil, ← hphis]
      have hsame : Function.update blocks n { blocks n with phis := (blocks n).phis } = blocks :=
        Function.update_eq_self n blocks
      rw [hsame]
      exact ⟨by simpa [phiReads] using h, rfl⟩
  | cons phi rest ih =>
      obtain ⟨hshows, hstacks⟩ := h.addOperand htops hphis
      have hdone : (done ++ [extend env p phi]).length = k + 1 := by simp [hk]
      obtain ⟨hshows', hstacks'⟩ := ih hshows (htops.of_eq hstacks)
        (by rw [Function.update_self, List.append_cons]) hdone
      rw [hk] at hshows' hstacks' hstacks
      rw [Function.update_self, Function.update_idem] at hshows'
      rw [phiReads_cons, List.map_cons, List.zipIdx_cons, List.foldl_cons]
      simp only [List.append_assoc, List.singleton_append] at hshows'
      exact ⟨hshows', hstacks'.trans hstacks⟩

theorem addOperands (h : Shows c b blocks entries reads) (htops : Tops b env)
    (hn : n < c.view.size) :
    Shows c (b.addOperands p n)
        (Function.update blocks n { blocks n with phis := (blocks n).phis.map (extend env p) })
        entries (reads ++ phiReads env n 0 (blocks n).phis) ∧
      (b.addOperands p n).versionStacks = b.versionStacks := by
  unfold Builder.addOperands
  rw [h.getElem?_blocks hn]
  exact h.addOperands_from htops (List.nil_append _).symm rfl

/-- A block adds its operands to all of its successors. -/
theorem addOperands_succ {targets : List NodeId} (h : Shows c b blocks entries reads)
    (htops : Tops b env) (hnodup : targets.Nodup) (hlt : ∀ s ∈ targets, s < c.view.size) :
    Shows c (targets.foldl (fun b s => b.addOperands p s) b)
        (fun m => if m ∈ targets then
          { blocks m with phis := (blocks m).phis.map (extend env p) } else blocks m)
        entries (reads ++ targets.flatMap fun s => phiReads env s 0 (blocks s).phis) ∧
      (targets.foldl (fun b s => b.addOperands p s) b).versionStacks = b.versionStacks := by
  induction targets generalizing b blocks reads with
  | nil => exact ⟨by simpa using h, rfl⟩
  | cons s rest ih =>
      obtain ⟨hs, hrest⟩ := List.nodup_cons.1 hnodup
      obtain ⟨hshows, hstacks⟩ := h.addOperands (p := p) htops (hlt s List.mem_cons_self)
      obtain ⟨hshows', hstacks'⟩ := ih hshows (htops.of_eq hstacks) hrest
        fun t ht => hlt t (List.mem_cons_of_mem s ht)
      refine ⟨?_, hstacks'.trans hstacks⟩
      have hreads : (rest.flatMap fun t => phiReads env t 0
            (Function.update blocks s { blocks s with
              phis := (blocks s).phis.map (extend env p) } t).phis) =
          rest.flatMap fun t => phiReads env t 0 (blocks t).phis := by
        refine List.flatMap_congr fun t ht => ?_
        have hne : t ≠ s := fun heq => hs (heq ▸ ht)
        rw [Function.update_of_ne hne]
      have hblocks : (fun m => if m ∈ rest then
            { Function.update blocks s { blocks s with
                phis := (blocks s).phis.map (extend env p) } m with
              phis := (Function.update blocks s { blocks s with
                phis := (blocks s).phis.map (extend env p) } m).phis.map (extend env p) }
            else Function.update blocks s { blocks s with
              phis := (blocks s).phis.map (extend env p) } m) =
          fun m => if m ∈ s :: rest then
            { blocks m with phis := (blocks m).phis.map (extend env p) } else blocks m := by
        funext m
        by_cases hm : m = s
        · subst hm
          rw [if_neg hs, if_pos List.mem_cons_self, Function.update_self]
        · simp only [Function.update_of_ne hm, List.mem_cons, hm, false_or]
      rw [hreads, hblocks, List.append_assoc] at hshows'
      exact hshows'

end Shows

end Builder

end Ssa

end MethodFlow
