import MethodFlow.Proofs.Graph.Search
import MethodFlow.Proofs.Ssa.Steps

/-!
# Construction

Construction arrives at the form that environments describe.

Where the walk stands is told by the nodes that it has entered: their
definitions are in the table, their reads are listed, their instructions are
renamed, and their operands are in the phi nodes of their successors, wherever
these are (`Ssa.progress`).  The stacks fit the turns that remain
(`Ssa.Ready`): with each node that is still to be entered, once the turns
before it are taken, the current versions are those at the end of its parent.
Entering a node keeps this, because its children come next and find what the
node leaves, and behind them a turn restores the stacks for the rest.

The nodes are entered in the order in which a search down the tree finds them,
so at the end the walk has entered all of them, in renaming order.

## Main results

* `Ssa.Builder.Shows.renameBlock`: what entering a node records.
* `Ssa.Builder.Shows.walk`: what the walk has recorded at its end.
* `Ssa.getElem?_blocks`, `Ssa.table_ofCfg`: the blocks and the table of the
  form of a graph.
-/

namespace MethodFlow

/-- Counting the members of a list that pass a test, each gets as its number
how many stand before it. -/
theorem map_countP_take {α : Type} (p : α → Bool) (l : List α) :
    (l.zipIdx.filter fun e => p e.1).map (fun e => (l.take e.2).countP p) =
      List.range (l.countP p) := by
  induction l using List.reverseRecOn with
  | nil => rfl
  | append_singleton l a ih =>
      have hbefore : (l.zipIdx.filter fun e => p e.1).map
            (fun e => ((l ++ [a]).take e.2).countP p) =
          (l.zipIdx.filter fun e => p e.1).map (fun e => (l.take e.2).countP p) := by
        refine List.map_congr_left fun e he => ?_
        have hlt := List.snd_lt_of_mem_zipIdx (List.mem_filter.1 he).1
        rw [List.take_append_of_le_length (Nat.le_of_lt hlt)]
      rw [List.zipIdx_append, List.filter_append, List.map_append, hbefore, ih,
        List.countP_append]
      by_cases ha : p a = true
      · simp [ha, List.range_succ]
      · simp [ha]

namespace Ssa

variable {c : Cfg} {b : Builder} {blocks : NodeId → SsaBlock}
  {entries : List (Variable × DefSite)} {reads : List (SsaId × UseSite)} {env : Env}
  {done rest pending : List NodeId} {visits : List Visit} {x : Variable} {n : Nat}

/-! ## Tables that grow -/

theorem table_concat (c : Cfg) (d : Dominators) (done : List NodeId) (n : NodeId) :
    Ssa.table c d (done ++ [n]) = Ssa.table c d done ++ codeDefs n 0 (c.codeOf n) := by
  simp [Ssa.table, blockDefs]

theorem table_append (c : Cfg) (d : Dominators) (done rest : List NodeId) :
    Ssa.table c d (done ++ rest) = Ssa.table c d done ++ rest.flatMap (blockDefs c) := by
  simp [Ssa.table]

/-- A phi node of a block stands behind the others. -/
theorem barePhis_concat (entries : List (Variable × DefSite)) (x : Variable) (site : DefSite)
    (n : NodeId) : barePhis (entries ++ [(x, site)]) n =
      barePhis entries n ++ if site = .phi n then [⟨entries.length, x, []⟩] else [] := by
  rw [barePhis, List.zipIdx_append, List.filterMap_append, Nat.zero_add, List.zipIdx_singleton]
  refine congrArg _ ?_
  by_cases hsite : site = .phi n <;> simp [hsite]

/-- The definitions of instructions bring no phi nodes. -/
theorem barePhis_table (c : Cfg) (d : Dominators) (done : List NodeId) (n : NodeId) :
    barePhis (Ssa.table c d done) n = barePhis (Ssa.table c d []) n := by
  have happend := table_append c d [] done
  rw [List.nil_append] at happend
  rw [happend, barePhis, List.zipIdx_append, List.filterMap_append]
  refine (congrArg _ (List.filterMap_eq_nil_iff.2 ?_)).trans (List.append_nil _)
  -- what a renamed block defines is an instruction's
  rintro ⟨e, k⟩ hmem
  obtain ⟨m, -, he⟩ := List.mem_flatMap.1 (List.fst_mem_of_mem_zipIdx hmem)
  obtain ⟨i, -, hdef⟩ := List.mem_filterMap.1 he
  obtain ⟨x, -, rfl⟩ := Option.map_eq_some_iff.1 hdef
  simp

/-- The phi nodes stand in the table before everything else is renamed. -/
theorem lt_of_mem_barePhis {phi : Phi} {d : Dominators} {order : List NodeId}
    (h : phi ∈ barePhis (Ssa.table c d order) n) (done : List NodeId) :
    phi.result < (Ssa.table c d done).length := by
  rw [barePhis_table] at h
  have hlt := (List.getElem?_eq_some_iff.1 (mem_barePhis.1 h).1).1
  have happend := table_append c d [] done
  rw [List.nil_append] at happend
  rw [happend, List.length_append]
  exact Nat.lt_add_right _ hlt

theorem origin_mem_of_mem_barePhis {phi : Phi} (h : phi ∈ barePhis (versions c) n) :
    phi.origin ∈ origins c :=
  mem_origins_of_mem_versions (List.mem_of_getElem? (mem_barePhis.1 h).1)

/-! ## Entering a node -/

/-- The block of a node when some nodes have been entered. -/
def progress (c : Cfg) (done : List NodeId) (n : NodeId) : SsaBlock where
  id := n
  phis := (barePhis (versions c) n).map fun phi =>
    { phi with operands := operandsFrom c n done phi.origin }
  code := if n ∈ done then nodeCode c n else (c.codeOf n).map fun i => ⟨i, none, []⟩

theorem progress_renameOrder (hn : n ∈ renameOrder c c.dominators) :
    progress c (renameOrder c c.dominators) n = nodeBlock c n := by
  rw [progress, if_pos hn]
  rfl

theorem operandsFrom_concat (c : Cfg) (m n : NodeId) (done : List NodeId) (x : Variable) :
    operandsFrom c m (done ++ [n]) x = operandsFrom c m done x ++
      if m ∈ c.view.succ n then (((leaving c n).get? x).map fun id => ⟨id, n⟩).toList else [] := by
  rw [operandsFrom, List.filter_append, List.filterMap_append]
  refine congrArg _ ?_
  by_cases hm : m ∈ c.view.succ n
  · have hone : ([n].filter fun p => (c.view.succ p).contains m) = [n] := by simp [hm]
    rw [if_pos hm, hone, List.filterMap_cons, List.filterMap_nil]
    cases (leaving c n).get? x <;> rfl
  · have hnone : ([n].filter fun p => (c.view.succ p).contains m) = [] := by simp [hm]
    rw [if_neg hm, hnone, List.filterMap_nil]

theorem extend_operands (env : Env) (n : NodeId) (phi : Phi) (operands : List PhiOperand) :
    extend env n { phi with operands } = { phi with
      operands := operands ++ ((env.get? phi.origin).map fun id => ⟨id, n⟩).toList } := by
  unfold extend
  dsimp only
  cases env.get? phi.origin with
  | none => rw [Option.map_none, Option.toList_none, List.append_nil]
  | some id => rfl

/-- When a node is entered, its own instructions are renamed, and the phi nodes
of its successors get operands. -/
theorem progress_concat (hnew : n ∉ done) :
    (fun m =>
      let begun := Function.update (progress c done) n
        { progress c done n with code := nodeCode c n } m
      if m ∈ c.view.succ n then
        { begun with phis := begun.phis.map (extend (leaving c n) n) }
      else begun) = progress c (done ++ [n]) := by
  funext m
  have hbegun : Function.update (progress c done) n
      { progress c done n with code := nodeCode c n } m =
        { progress c done m with code := (progress c (done ++ [n]) m).code } := by
    by_cases hm : m = n
    · subst hm
      rw [Function.update_self]
      simp [progress]
    · rw [Function.update_of_ne hm]
      simp [progress, hm]
  dsimp only
  rw [hbegun]
  by_cases hm : m ∈ c.view.succ n
  · simp only [if_pos hm, progress, operandsFrom_concat, List.map_map, Function.comp_def,
      extend_operands]
  · simp only [if_neg hm, progress, operandsFrom_concat, List.append_nil]

theorem foldl_insert_progress (done : List NodeId) (n : NodeId) (env : Env) :
    (progress c done n).phis.foldl (fun env phi => env.insert phi.origin phi.result) env =
      withPhis (versions c) n env := by
  rw [progress, List.foldl_map]
  rfl

theorem phiReads_map (env : Env) (n k : Nat) (phis : List Phi) (f : Phi → Phi)
    (hf : ∀ phi, (f phi).origin = phi.origin) :
    phiReads env n k (phis.map f) = phiReads env n k phis := by
  induction phis generalizing k with
  | nil => rfl
  | cons phi rest ih => rw [List.map_cons, phiReads_cons, phiReads_cons, hf, ih]

/-- Operands and instructions do not matter for what the phi nodes of a block
read. -/
theorem phiReads_progress (env : Env) (done : List NodeId) (n m : NodeId)
    (code : List SsaInstruction) :
    phiReads env m 0 (Function.update (progress c done) n
        { progress c done n with code } m).phis = phiReads env m 0 (barePhis (versions c) m) := by
  have hphis : (Function.update (progress c done) n { progress c done n with code } m).phis =
      (progress c done m).phis := by
    by_cases hm : m = n
    · subst hm
      rw [Function.update_self]
    · rw [Function.update_of_ne hm]
  rw [hphis]
  exact phiReads_map env m 0 _ _ fun _ => rfl

/-- The phi nodes of a block are versions that have been made. -/
theorem made_of_mem_progress {phi : Phi} (h : phi ∈ (progress c done n).phis) :
    phi.origin ∈ origins c ∧ phi.result < (Ssa.table c c.dominators done).length := by
  obtain ⟨bare, hbare, rfl⟩ := List.mem_map.1 h
  have horigin := origin_mem_of_mem_barePhis hbare
  exact ⟨horigin, lt_of_mem_barePhis hbare done⟩

/-- A node that is entered has not been entered before. -/
theorem not_mem_of_renameOrder (h : renameOrder c c.dominators = done ++ n :: rest) :
    n ∉ done := by
  have hnodup : (renameOrder c c.dominators).Nodup := nodup_renameOrder
  rw [h] at hnodup
  exact fun hdone => (List.nodup_append.1 hnodup).2.2 n hdone n List.mem_cons_self rfl

/-- The definitions of the node that is entered come next in the table. -/
theorem table_goes_on (h : renameOrder c c.dominators = done ++ n :: rest) :
    Ssa.table c c.dominators done ++ codeDefs n 0 (c.codeOf n) <+: versions c := by
  rw [← table_concat, versions, h, List.append_cons done n rest, table_append _ _ _ rest]
  exact List.prefix_append _ _

namespace Builder.Shows

theorem pushPhis {phis : List Phi} (h : Shows c b blocks entries reads) (htops : Tops b env)
    (hkey : ∀ phi ∈ phis, b.versionStacks.contains phi.origin = true)
    (hlt : ∀ phi ∈ phis, phi.result < entries.length) :
    Shows c (phis.foldl (fun b phi => b.push phi.origin phi.result) b) blocks entries reads ∧
      Tops (phis.foldl (fun b phi => b.push phi.origin phi.result) b)
        (phis.foldl (fun env phi => env.insert phi.origin phi.result) env) ∧
      Pushed b (phis.foldl (fun b phi => b.push phi.origin phi.result) b)
        (phis.map Phi.origin) := by
  induction phis generalizing b env with
  | nil => exact ⟨h, htops, .of_eq rfl⟩
  | cons phi rest ih =>
      have hpush := pushed_push b phi.origin phi.result
      have hkey' : ∀ q ∈ rest,
          (b.push phi.origin phi.result).versionStacks.contains q.origin = true := by
        intro q hq
        rw [← contains_popAll [phi.origin], hpush]
        exact hkey q (List.mem_cons_of_mem phi hq)
      obtain ⟨hshows, htops', hpushed⟩ := ih (h.push (hlt phi List.mem_cons_self) phi.origin)
        (htops.push (hkey phi List.mem_cons_self) phi.result) hkey'
        fun q hq => hlt q (List.mem_cons_of_mem phi hq)
      exact ⟨hshows, htops', hpush.trans hpushed⟩

/-- **Entering a node** records its definitions, its reads, its instructions and
its operands, and leaves the versions current that environments say. -/
theorem renameBlock (hc : c.Wired)
    (h : Shows c b (progress c done) (Ssa.table c c.dominators done)
      (done.flatMap (nodeReads c)))
    (htops : Tops b (entering c n)) (hkeyed : Keyed c b)
    (horder : renameOrder c c.dominators = done ++ n :: rest) :
    Shows c (b.renameBlock c n).2 (progress c (done ++ [n]))
        (Ssa.table c c.dominators (done ++ [n])) ((done ++ [n]).flatMap (nodeReads c)) ∧
      Tops (b.renameBlock c n).2 (leaving c n) ∧
      Pushed b (b.renameBlock c n).2 (b.renameBlock c n).1 := by
  have hmem : n ∈ renameOrder c c.dominators := by rw [horder]; simp
  have hn : n < c.view.size := lt_of_mem_renameOrder hmem
  have hnew : n ∉ done := not_mem_of_renameOrder horder
  have hkey : ∀ phi ∈ (progress c done n).phis, b.versionStacks.contains phi.origin = true :=
    fun phi hphi => hkeyed phi.origin (made_of_mem_progress hphi).1
  have hcode : (progress c done n).code = (c.codeOf n).map fun i => ⟨i, none, []⟩ := if_neg hnew
  have hbare : (progress c done n).code.map SsaInstruction.instruction = c.codeOf n := by
    rw [hcode, List.map_map]
    exact List.map_id' _
  have hphis : ((progress c done n).phis.filter fun phi => b.versionStacks.contains phi.origin) =
      (progress c done n).phis := List.filter_eq_self.2 hkey
  obtain ⟨hshows₁, htops₁, hpushed₁⟩ :=
    h.pushPhis htops hkey fun phi hphi => (made_of_mem_progress hphi).2
  rw [foldl_insert_progress] at htops₁
  rw [Builder.renameBlock, h.getElem?_blocks hn]
  dsimp only
  rw [hphis, hbare]
  generalize (progress c done n).phis.foldl (fun b phi => b.push phi.origin phi.result) b = b₁
    at hshows₁ htops₁ hpushed₁ ⊢
  obtain ⟨hshows₂, htops₂, hpushed₂⟩ := hshows₁.renameCode htops₁ (hpushed₁.keyed_iff.2 hkeyed)
    (fun i hi x hx => mem_origins_of_defined hn hi hx) (nodup_table nodup_renameOrder)
    (table_goes_on horder) (hcode.trans (List.nil_append _).symm) rfl
  rw [List.nil_append] at hshows₂
  generalize Builder.renameCode n 0 (c.codeOf n) b₁ = renamed at hshows₂ htops₂ hpushed₂ ⊢
  obtain ⟨hshows₃, hstacks⟩ := hshows₂.addOperands_succ htops₂
    (hc.built.nodup_successors n) fun s hs => hc.linked.target_lt hs
  refine ⟨?_, htops₂.of_eq hstacks, ?_⟩
  · have hreads : ((c.view.succ n).flatMap fun s => phiReads (leaving c n) s 0
        (Function.update (progress c done) n
          { progress c done n with code := nodeCode c n } s).phis) =
        (c.view.succ n).flatMap fun s => phiReads (leaving c n) s 0 (barePhis (versions c) s) :=
      List.flatMap_congr fun s _ => phiReads_progress _ done n s _
    rw [← progress_concat hnew, table_concat, List.flatMap_append, List.flatMap_singleton,
      nodeReads, ← List.append_assoc, ← hreads]
    exact hshows₃
  · have hpushed := (hpushed₁.trans hpushed₂).trans (.of_eq hstacks)
    rwa [List.append_nil] at hpushed

end Builder.Shows

/-! ## The walk -/

/-- The nodes that are entered in some turns. -/
def entered (visits : List Visit) : List NodeId :=
  visits.filterMap fun
    | .enter n => some n
    | .leave _ => none

theorem entered_children (children : List NodeId) (pushed : List Variable) (rest : List Visit) :
    entered (children.map .enter ++ .leave pushed :: rest) = children ++ entered rest := by
  rw [entered, List.filterMap_append, List.filterMap_map]
  exact congrArg (· ++ _) List.filterMap_some

/-- With each node that is still to be entered, the stacks will hold the
versions that it starts with. -/
def Ready (c : Cfg) : SortedMap Variable (List SsaId) → List Visit → Prop
  | _, [] => True
  | held, .enter n :: rest =>
    (∀ x, (held.get? x).bind List.head? = (entering c n).get? x) ∧ Ready c held rest
  | held, .leave pushed :: rest => Ready c (popAll pushed held) rest

theorem Ready.append {held : SortedMap Variable (List SsaId)} {nodes : List NodeId}
    (hnodes : ∀ n ∈ nodes, ∀ x, (held.get? x).bind List.head? = (entering c n).get? x)
    (hrest : Ready c held visits) : Ready c held (nodes.map .enter ++ visits) := by
  induction nodes with
  | nil => exact hrest
  | cons n nodes ih =>
      exact ⟨hnodes n List.mem_cons_self, ih fun m hm => hnodes m (List.mem_cons_of_mem n hm)⟩

/-- **The walk** enters the nodes that a search down the tree finds, and records
all of them. -/
theorem Builder.Shows.walk (hc : c.Wired)
    (h : Shows c b (progress c done) (Ssa.table c c.dominators done)
      (done.flatMap (nodeReads c)))
    (hkeyed : Keyed c b) (hready : Ready c b.versionStacks visits)
    (horder : renameOrder c c.dominators =
      done ++ explore c.dominators.children pending (entered visits)) :
    Shows c (b.walk c c.dominators pending visits)
      (progress c (renameOrder c c.dominators)) (versions c)
      ((renameOrder c c.dominators).flatMap (nodeReads c)) := by
  fun_induction Builder.walk c c.dominators pending visits b generalizing done with
  | case1 pending b =>
      rw [entered, List.filterMap_nil, explore_nil, List.append_nil] at horder
      rw [versions, horder]
      exact h
  | case2 pending pushed rest b ih =>
      rw [leave_eq] at ih ⊢
      refine ih { h with live := ?_ } ?_ hready horder
      · intro x stack hstack id hid
        rw [get?_popAll] at hstack
        obtain ⟨whole, hwhole, rfl⟩ := Option.map_eq_some_iff.1 hstack
        exact h.live hwhole id (List.mem_of_mem_drop hid)
      · intro x hx
        rw [contains_popAll]
        exact hkeyed x hx
  | case3 pending n rest b hn pushed b' hrenamed ih =>
      have hfound : entered (.enter n :: rest) = n :: entered rest := rfl
      rw [hfound, explore_cons_of_mem hn] at horder
      obtain ⟨hshows, htops, hpushed⟩ := h.renameBlock hc hready.1 hkeyed horder
      rw [hrenamed] at hshows htops hpushed
      refine ih hshows (hpushed.keyed_iff.2 hkeyed) (.append (fun m hm x => ?_) ?_) ?_
      · have hparent := (Dominators.mem_children hc.linked).1 hm
        rw [entering_of_idom? hc hparent, ← htops x]
        rfl
      · show Ready c (popAll pushed b'.versionStacks) rest
        have hstacks : popAll pushed b'.versionStacks = b.versionStacks := hpushed
        rw [hstacks]
        exact hready.2
      · rw [entered_children, horder, List.append_cons]
  | case4 pending n rest b hn ih =>
      have hfound : entered (.enter n :: rest) = n :: entered rest := rfl
      rw [hfound, explore_cons_of_not_mem hn] at horder
      exact ih h hkeyed hready.2 horder

/-! ## The beginning of the walk -/

/-- The block of a node before the walk. -/
def unfilled (c : Cfg) (entries : List (Variable × DefSite)) (n : NodeId) : SsaBlock :=
  ⟨n, barePhis entries n, (c.codeOf n).map fun i => ⟨i, none, []⟩⟩

theorem progress_nil (c : Cfg) :
    progress c [] = unfilled c (Ssa.table c c.dominators []) := by
  funext n
  rw [progress, unfilled, versions, barePhis_table, if_neg List.not_mem_nil]
  have hbare : ∀ phi ∈ barePhis (Ssa.table c c.dominators []) n,
      { phi with operands := operandsFrom c n [] phi.origin } = phi := by
    intro phi hphi
    have hnone := (mem_barePhis.1 hphi).2
    obtain ⟨result, origin, operands⟩ := phi
    cases hnone
    rfl
  rw [List.map_congr_left hbare, List.map_id']

namespace Builder.Shows

theorem begin (c : Cfg) :
    Shows c ⟨.unrenamed c, .empty, .empty⟩ (unfilled c []) [] [] where
  method := rfl
  blocks := rfl
  table := rfl
  next _ := rfl
  live h := nomatch h
  made := by simp

theorem addOrigin (h : Shows c b (unfilled c entries) entries []) (x : Variable) :
    Shows c (b.addOrigin x) (unfilled c (entries ++ [(x, .entry)])) (entries ++ [(x, .entry)])
      [] := by
  have hsame : unfilled c (entries ++ [(x, .entry)]) = unfilled c entries := by
    funext n
    simp [unfilled, barePhis_concat]
  rw [hsame]
  have hmade := h.newVersion x .entry
  refine { hmade with live := ?_ }
  intro y stack hstack id hid
  have hget : (b.versionStacks.insert x [b.form.table.length]).get? y = some stack := hstack
  rw [SortedMap.get?_insert] at hget
  split at hget
  · cases hget
    rw [List.mem_singleton.1 hid, h.table, length_rows]
    simp
  · exact hmade.live hget id hid

theorem addPhi (h : Shows c b (unfilled c entries) entries []) (x : Variable) (n : NodeId) :
    Shows c (b.addPhi x n) (unfilled c (entries ++ [(x, .phi n)])) (entries ++ [(x, .phi n)])
      [] := by
  have hblocks : unfilled c (entries ++ [(x, .phi n)]) =
      Function.update (unfilled c entries) n { unfilled c entries n with
        phis := (unfilled c entries n).phis ++ [⟨entries.length, x, []⟩] } := by
    funext m
    by_cases hm : m = n
    · subst hm
      simp [unfilled, barePhis_concat]
    · simp [unfilled, barePhis_concat, Function.update_of_ne hm, Ne.symm hm]
  rw [hblocks, ← h.fst_newVersion x (.phi n)]
  exact (h.newVersion x (.phi n)).modifyBlock n _

end Builder.Shows

/-- The variables that have a version at the entry have just this one on their
stacks. -/
def Initial (entries : List (Variable × DefSite)) (b : Builder) : Prop :=
  ∀ x, (b.versionStacks.get? x = none ∧ (x, .entry) ∉ entries) ∨
    ∃ id, b.versionStacks.get? x = some [id] ∧ entries[id]? = some (x, .entry)

theorem Initial.addOrigin (h : Initial entries b)
    (hshows : Builder.Shows c b blocks entries reads) (x : Variable) :
    Initial (entries ++ [(x, .entry)]) (b.addOrigin x) := by
  intro y
  have hget : (b.addOrigin x).versionStacks.get? y =
      if y = x then some [entries.length] else b.versionStacks.get? y := by
    rw [← hshows.fst_newVersion x .entry]
    exact SortedMap.get?_insert b.versionStacks x _ y
  rw [hget]
  by_cases hyx : y = x
  · rw [if_pos hyx, hyx]
    exact .inr ⟨_, rfl, List.getElem?_concat_length⟩
  · rw [if_neg hyx]
    rcases h y with ⟨hnone, hmem⟩ | ⟨id, hid, hentry⟩
    · exact .inl ⟨hnone, by simp [hmem, hyx]⟩
    · exact .inr ⟨id, hid, by
        rw [List.getElem?_append_left (List.getElem?_eq_some_iff.1 hentry).1, hentry]⟩

theorem Initial.addPhi (h : Initial entries b) (x : Variable) (n : NodeId) :
    Initial (entries ++ [(x, .phi n)]) (b.addPhi x n) := by
  intro y
  show (b.versionStacks.get? y = none ∧ _) ∨ ∃ id, b.versionStacks.get? y = some [id] ∧ _
  rcases h y with ⟨hnone, hmem⟩ | ⟨id, hid, hentry⟩
  · exact .inl ⟨hnone, by simp [hmem]⟩
  · exact .inr ⟨id, hid, by
      rw [List.getElem?_append_left (List.getElem?_eq_some_iff.1 hentry).1, hentry]⟩

/-- A builder before the walk. -/
structure Placed (c : Cfg) (entries : List (Variable × DefSite)) (b : Builder) : Prop where
  shows : b.Shows c (unfilled c entries) entries []
  initial : Initial entries b

theorem entry_mem_table {d : Dominators} :
    (x, .entry) ∈ Ssa.table c d done ↔ x ∈ origins c := mem_table

namespace Placed

theorem addOrigins (h : Placed c entries b) (xs : List Variable) :
    Placed c (entries ++ xs.map fun x => (x, .entry)) (xs.foldl Builder.addOrigin b) := by
  induction xs generalizing b entries with
  | nil => simpa using h
  | cons x xs ih =>
      rw [List.map_cons, List.append_cons]
      exact ih ⟨h.shows.addOrigin x, h.initial.addOrigin h.shows x⟩

theorem addPhis (h : Placed c entries b) (x : Variable) (nodes : List NodeId) :
    Placed c (entries ++ nodes.map fun n => (x, .phi n)) (nodes.foldl (·.addPhi x) b) := by
  induction nodes generalizing b entries with
  | nil => simpa using h
  | cons n nodes ih =>
      rw [List.map_cons, List.append_cons]
      exact ih ⟨h.shows.addPhi x n, h.initial.addPhi x n⟩

theorem addAllPhis (h : Placed c entries b) (d : Dominators) (xs : List Variable) :
    Placed c (entries ++ xs.flatMap fun x => (phiBlocks c d x).map fun n => (x, .phi n))
      (xs.foldl (fun b x => (phiBlocks c d x).foldl (·.addPhi x) b) b) := by
  induction xs generalizing b entries with
  | nil => simpa using h
  | cons x xs ih =>
      rw [List.flatMap_cons, ← List.append_assoc]
      exact ih (h.addPhis x _)

theorem begin (c : Cfg) : Placed c [] ⟨.unrenamed c, .empty, .empty⟩ :=
  ⟨.begin c, fun _ => .inl ⟨rfl, List.not_mem_nil⟩⟩

theorem keyed {d : Dominators} (h : Placed c (Ssa.table c d []) b) : Keyed c b := by
  intro x hx
  rcases h.initial x with ⟨-, hmem⟩ | ⟨id, hid, -⟩
  · exact absurd (entry_mem_table.2 hx) hmem
  · rw [SortedMap.contains, hid]
    rfl

/-- The current versions are the versions 0. -/
theorem tops (h : Placed c (Ssa.table c c.dominators []) b) : Tops b (startEnv (versions c)) := by
  intro x
  rw [Builder.current?]
  rcases get?_startEnv (versions c) x with ⟨k, hk, hget⟩ | ⟨hnone, hget⟩
  · rw [hget]
    rcases h.initial x with ⟨-, hmem⟩ | ⟨id, hid, hentry⟩
    · exact absurd (entry_mem_table.2 (entry_mem_table.1 (List.mem_of_getElem? hk))) hmem
    · have hbegins : (versions c)[id]? = some (x, .entry) := by
        have happend := table_append c c.dominators [] (renameOrder c c.dominators)
        rw [List.nil_append] at happend
        rw [versions, happend, List.getElem?_append_left (List.getElem?_eq_some_iff.1 hentry).1,
          hentry]
      have hsame := (List.getElem?_inj (List.getElem?_eq_some_iff.1 hk).1
        (nodup_table nodup_renameOrder)).1 (hk.trans hbegins.symm)
      rw [hid, hsame]
      rfl
  · rw [hget]
    rcases h.initial x with ⟨hempty, -⟩ | ⟨id, -, hentry⟩
    · rw [hempty]
      rfl
    · exact absurd (entry_mem_table.2 (entry_mem_table.1 (List.mem_of_getElem? hentry))) hnone

end Placed

theorem idom?_of_mem_roots (hc : c.Wired) (h : n ∈ roots c c.dominators) :
    c.dominators.idom? n = none := by
  rcases List.mem_cons.1 h with rfl | h
  · exact Dominators.idom?_root hc.linked hc.entry_lt
  · have hnone := (List.mem_filter.1 h).2
    simp only [Bool.and_eq_true] at hnone
    exact Option.isNone_iff_eq_none.1 hnone.2

/-- From the roots the walk records everything. -/
theorem Placed.walk (hc : c.Wired) (h : Placed c (Ssa.table c c.dominators []) b) :
    Builder.Shows c (b.walk c c.dominators c.view.nodes ((roots c c.dominators).map .enter))
      (progress c (renameOrder c c.dominators)) (versions c)
      ((renameOrder c c.dominators).flatMap (nodeReads c)) := by
  have hbegun := h.shows
  rw [← progress_nil] at hbegun
  have htops : ∀ n ∈ roots c c.dominators, ∀ x,
      (b.versionStacks.get? x).bind List.head? = (entering c n).get? x := by
    intro n hn x
    rw [entering_of_root (idom?_of_mem_roots hc hn), ← h.tops x]
    rfl
  have hready : Ready c b.versionStacks ((roots c c.dominators).map .enter ++ []) :=
    .append htops trivial
  rw [List.append_nil] at hready
  have hentered : entered ((roots c c.dominators).map .enter) = roots c c.dominators := by
    rw [entered, List.filterMap_map]
    exact List.filterMap_some
  refine hbegun.walk hc h.keyed hready ?_
  rw [hentered]
  rfl

end Ssa

/-- **Construction arrives** at the form that environments describe: the blocks
of all nodes, and the table of all versions, each with what reads it, in the
order of renaming. -/
theorem SsaForm.ofCfg_eq {c : Cfg} (hc : c.Wired) :
    SsaForm.ofCfg c = {
      method := c.method
      blocks := c.view.nodes.map (Ssa.nodeBlock c)
      table := Ssa.rows (Ssa.versions c)
        ((Ssa.renameOrder c c.dominators).flatMap (Ssa.nodeReads c)) } := by
  have hplaced := ((Ssa.Placed.begin c).addOrigins (Ssa.origins c)).addAllPhis c.dominators
    (Ssa.origins c)
  have htable : [] ++ (Ssa.origins c).map (fun x => (x, DefSite.entry)) ++
      ((Ssa.origins c).flatMap fun x => (Ssa.phiBlocks c c.dominators x).map fun n =>
        (x, DefSite.phi n)) = Ssa.table c c.dominators [] := by
    simp [Ssa.table]
  rw [htable] at hplaced
  have hshows := hplaced.walk hc
  have hblocks : c.view.nodes.map (Ssa.progress c (Ssa.renameOrder c c.dominators)) =
      c.view.nodes.map (Ssa.nodeBlock c) :=
    List.map_congr_left fun n hn =>
      Ssa.progress_renameOrder (Ssa.mem_renameOrder hc (List.mem_range.1 hn))
  rw [← hblocks, ← hshows.blocks, ← hshows.table, ← hshows.method]
  rfl

namespace Ssa

variable {c : Cfg} {block : SsaBlock} {v : SsaVar} {x : Variable} {site : DefSite} {id n : Nat}

/-! ## Blocks and versions of the form -/

theorem length_blocks (hc : c.Wired) : (SsaForm.ofCfg c).blocks.length = c.view.size := by
  rw [SsaForm.ofCfg_eq hc, List.length_map, View.nodes, List.length_range]

/-- The blocks of the form are the renamed nodes of the graph. -/
theorem getElem?_blocks (hc : c.Wired) :
    (SsaForm.ofCfg c).blocks[n]? = some block ↔ n < c.view.size ∧ block = nodeBlock c n := by
  rw [SsaForm.ofCfg_eq hc, List.getElem?_map, View.nodes]
  by_cases hn : n < c.view.size
  · rw [List.getElem?_range hn, Option.map_some, Option.some.injEq, eq_comm]
    exact (and_iff_right hn).symm
  · rw [List.getElem?_eq_none (by simpa using hn)]
    simp [hn]

theorem table_ofCfg (hc : c.Wired) : (SsaForm.ofCfg c).table =
    rows (versions c) ((renameOrder c c.dominators).flatMap (nodeReads c)) := by
  rw [SsaForm.ofCfg_eq hc]

theorem exists_table (hc : c.Wired) (h : (versions c)[id]? = some (x, site)) :
    ∃ uses, (SsaForm.ofCfg c).table[id]? =
      some ⟨id, x, versionOf (versions c) id x, site, uses⟩ := by
  rw [table_ofCfg hc, getElem?_rows, h]
  exact ⟨_, rfl⟩

theorem getElem?_versions_of_table (hc : c.Wired)
    (h : (SsaForm.ofCfg c).table[id]? = some v) :
    (versions c)[id]? = some (v.origin, v.site) ∧
      v.version = versionOf (versions c) id v.origin ∧ v.id = id := by
  rw [table_ofCfg hc, getElem?_rows] at h
  obtain ⟨e, he, rfl⟩ := Option.map_eq_some_iff.1 h
  exact ⟨he, rfl, rfl⟩

/-- The versions of a variable are numbered 0, 1, 2 and so on. -/
theorem map_version_versions (hc : c.Wired) (x : Variable) :
    ((SsaForm.ofCfg c).versions x).map SsaVar.version =
      List.range ((SsaForm.ofCfg c).versions x).length := by
  have hcounts : ((SsaForm.ofCfg c).versions x).map SsaVar.version =
      ((versions c).zipIdx.filter fun e => e.1.1 == x).map
        fun e => ((versions c).take e.2).countP fun e => e.1 == x := by
    rw [SsaForm.versions, table_ofCfg hc, rows, List.filter_map, List.map_map]
    refine List.map_congr_left fun e he => ?_
    have hx : e.1.1 = x := beq_iff_eq.1 (List.mem_filter.1 he).2
    show versionOf (versions c) e.2 e.1.1 = _
    rw [hx]
    rfl
  rw [← List.length_map, hcounts, map_countP_take, List.length_range]

end Ssa

end MethodFlow
