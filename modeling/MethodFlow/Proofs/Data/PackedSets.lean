import MethodFlow.Proofs.Data.PackedWords

/-!
# Packed sets behave as finite sets

`PackedSet.Shows` is the invariant of packed sets: there are as many words as
the capacity needs, and the set bits, wherever they are, are the members of a
finite set below the capacity.  In particular the spare bits of the last word
are clear.  Every operation keeps it, so that packed sets cannot be told from
bit sets or from finite sets by any sequence of calls, no word is ever missing,
and no bit beyond the capacity is ever set.

## Main results

* `PackedSet.words_change`, `PackedSet.combine_eq`, `PackedSet.bitAt_full`,
  `PackedSet.sum_cpop`: what the operations do to single bits.
* `PackedSet.simulates`: packed sets simulate finite sets.
* `BitSet.transcript_exact`: any calls on bit sets and on packed sets.
-/

namespace MethodFlow

namespace PackedSet

/-- The operations of packed sets. -/
def ops : SetOps PackedSet where
  new := new
  full := full
  singleton := singleton
  insert := insert
  erase := erase
  unionWith p q := p.combine q fun a b => a ||| b
  intersectWith p q := p.combine q fun a b => a &&& b
  capacity := capacity
  contains := contains
  count := count
  isEmpty := isEmpty
  isSubset := isSubset
  equal p q := decide (p = q)
  elements p := p.iter.collect

variable {p p' : PackedSet} {words words' : List Word} {i element : Nat}

/-! ## Bits of whole sets -/

theorem bitAt_new (capacity i : Nat) : bitAt (new capacity).words i = false := by
  rw [new, bitAt_replicate, BitVec.getLsbD_zero, Bool.and_false]

theorem getLsbD_lowBits {used : Nat} (hused : used < 64) (j : Nat) :
    (lowBits used).getLsbD j = decide (j < used) := by
  have hone : (1#64).toNat = 1 := rfl
  have hshift : (1#64 <<< used).toNat = 2 ^ used := by
    have hlt : 2 ^ used < 2 ^ 64 := Nat.pow_lt_pow_right (by decide) hused
    rw [BitVec.toNat_shiftLeft, hone, Nat.one_shiftLeft, Nat.mod_eq_of_lt hlt]
  have hle : 1#64 ≤ 1#64 <<< used := by
    rw [BitVec.le_def, hshift, hone]
    exact Nat.two_pow_pos used
  rw [← BitVec.testBit_toNat, lowBits, BitVec.toNat_sub_of_le hle, hshift, hone,
    Nat.testBit_two_pow_sub_one]

/-- Trimming keeps, in the last word, the bits below the capacity. -/
theorem bitAt_trimTail (hused : p.capacity % 64 ≠ 0) (i : Nat) :
    bitAt p.trimTail.words i =
      (bitAt p.words i &&
        (decide (i / 64 ≠ p.words.length - 1) || decide (i % 64 < p.capacity % 64))) := by
  have hlow := getLsbD_lowBits (Nat.mod_lt p.capacity (by decide : 0 < 64)) (i % 64)
  unfold trimTail
  simp only [if_neg hused, bitAt, List.getElem?_modify]
  by_cases hlast : p.words.length - 1 = i / 64
  · cases hw : p.words[i / 64]? <;> simp [hlast, hlow]
  · simp [hlast, Ne.symm hlast]

/-- The full set has the bits below the capacity and no others. -/
theorem bitAt_full (capacity i : Nat) :
    bitAt (full capacity).words i = decide (i < capacity) := by
  have hall : bitAt (List.replicate (wordCount capacity) (BitVec.allOnes 64)) i =
      decide (i / 64 < wordCount capacity) := by
    have hlt : i % 64 < 64 := Nat.mod_lt _ (by decide)
    rw [bitAt_replicate, BitVec.getLsbD_allOnes, decide_eq_true hlt, Bool.and_true]
  by_cases hused : capacity % 64 = 0
  · rw [full, trimTail, if_pos hused, hall, decide_eq_decide, wordCount]
    omega
  · rw [full, bitAt_trimTail hused, hall, List.length_replicate, Bool.eq_iff_iff]
    simp only [Bool.and_eq_true, Bool.or_eq_true, decide_eq_true_iff]
    unfold wordCount
    omega

theorem length_trimTail (p : PackedSet) : p.trimTail.words.length = p.words.length := by
  unfold trimTail
  split
  · rfl
  · exact List.length_modify ..

theorem capacity_trimTail (p : PackedSet) : p.trimTail.capacity = p.capacity := by
  unfold trimTail
  split <;> rfl

/-! ## One word -/

/-- A word that the capacity needs is there. -/
theorem getElem?_words (hlength : p.words.length = wordCount p.capacity)
    (hlt : element < p.capacity) : ∃ w, p.words[element / 64]? = some w := by
  have hword : element / 64 < p.words.length := by
    rw [hlength, wordCount]
    omega
  exact ⟨p.words[element / 64], List.getElem?_eq_getElem hword⟩

theorem contains_eq (hlength : p.words.length = wordCount p.capacity)
    (hlt : element < p.capacity) : p.contains element = .ok (bitAt p.words element) := by
  obtain ⟨w, hw⟩ := getElem?_words hlength hlt
  rw [contains, if_neg (Nat.not_le.2 hlt), bitAt_of_getElem? hw, ← and_mask_bne]
  simp only [word, hw]
  rfl

/-- **Changing one word**: an operation on words that works bit by bit, and
does nothing where the mask is clear, works on the one bit of the element. -/
theorem words_change (hlength : p.words.length = wordCount p.capacity)
    (hlt : element < p.capacity) (op : Word → Word → Word) (f : Bool → Bool → Bool)
    (hkeep : ∀ b, f b false = b)
    (hop : ∀ x y j, (op x y).getLsbD j = f (x.getLsbD j) (y.getLsbD j)) :
    ∃ words, p.change element op = .ok (⟨p.capacity, words⟩, bitAt p.words element) ∧
      words.length = wordCount p.capacity ∧
      ∀ i, bitAt words i = f (bitAt p.words i) (decide (i = element)) := by
  obtain ⟨w, hw⟩ := getElem?_words hlength hlt
  have hword := (List.getElem?_eq_some_iff.1 hw).1
  refine ⟨p.words.set (element / 64) (op w (mask element)), ?_, ?_, fun i => ?_⟩
  · rw [change, if_pos hlt, bitAt_of_getElem? hw, ← and_mask_bne]
    simp only [word, hw]
    rfl
  · rw [List.length_set, hlength]
  · rw [bitAt_set hword]
    split
    · next hi =>
      have hsame : (i = element) = (i % 64 = element % 64) := by
        rw [eq_iff_div_mod, hi, eq_self, true_and]
      rw [hop, getLsbD_mask, bitAt_of_getElem? (hi ▸ hw)]
      simp only [hsame]
    · next hi =>
      have hne : i ≠ element := fun h => hi (h ▸ rfl)
      rw [decide_eq_false hne, hkeep]

/-! ## Word by word -/

/-- A word has changed when the list of words has. -/
theorem any_zip_bne (hlength : words.length = words'.length) (op : Word → Word → Word) :
    ((words.zip words').any fun (a, b) => op a b != a) = (words.zipWith op words' != words) := by
  induction words generalizing words' with
  | nil => rfl
  | cons a rest ih =>
      cases words' with
      | nil => cases hlength
      | cons b rest' =>
          have hrest := ih (Nat.succ.inj hlength)
          simp only [bne] at hrest ⊢
          rw [List.zip_cons_cons, List.any_cons, hrest, List.zipWith_cons_cons, List.cons_beq_cons,
            Bool.not_and]

theorem combine_eq (hcapacity : p'.capacity = p.capacity)
    (hlength : p.words.length = p'.words.length) (op : Word → Word → Word) :
    p.combine p' op = .ok (⟨p.capacity, p.words.zipWith op p'.words⟩,
      p.words.zipWith op p'.words != p.words) := by
  have hdrop : p.words.drop p'.words.length = [] := List.drop_eq_nil_of_le (by omega)
  rw [combine, if_pos hcapacity, hdrop, List.append_nil, any_zip_bne hlength]

theorem getLsbD_and_not (a b : Word) (j : Nat) :
    (a &&& ~~~b).getLsbD j = (a.getLsbD j && !b.getLsbD j) := by
  cases ha : a.getLsbD j with
  | false => simp [ha]
  | true => simp [ha, BitVec.lt_of_getLsbD ha]

/-- Nothing is left of a word outside another just if the two share all of it. -/
theorem and_not_beq_zero (a b : Word) : (a &&& ~~~b == 0#64) = !(a &&& b != a) := by
  have hparts : a &&& ~~~b = 0#64 ↔ a &&& b = a := by
    rw [BitVec.eq_of_getLsbD_eq_iff, BitVec.eq_of_getLsbD_eq_iff]
    refine forall₂_congr fun j _ => ?_
    rw [getLsbD_and_not, BitVec.getLsbD_zero, BitVec.getLsbD_and]
    cases a.getLsbD j <;> cases b.getLsbD j <;> decide
  rw [bne, Bool.not_not, Bool.eq_iff_iff, beq_iff_eq, beq_iff_eq, hparts]

theorem isSubset_eq (hcapacity : p'.capacity = p.capacity)
    (hlength : p.words.length = p'.words.length) :
    p.isSubset p' = .ok (p.words.zipWith (fun a b => a &&& b) p'.words == p.words) := by
  have hshared := any_zip_bne hlength fun a b => a &&& b
  rw [isSubset, if_pos hcapacity]
  simp only [and_not_beq_zero]
  rw [← List.not_any_eq_all_not, hshared, bne, Bool.not_not]

/-! ## Counting -/

theorem toNat_cpop (w : Word) : w.cpop.toNat = (List.range 64).countP fun j => w.getLsbD j := by
  have hrec : ∀ k, w.cpopNatRec k 0 = (List.range k).countP fun j => w.getLsbD j := by
    intro k
    induction k with
    | zero => rfl
    | succ k ih =>
        rw [BitVec.cpopNatRec_succ, BitVec.cpopNatRec_add, ih, List.range_succ, List.countP_append]
        cases hbit : w.getLsbD k <;> simp [hbit]
  rw [BitVec.toNat_cpop, hrec]

/-- Counting word by word counts all bits. -/
theorem sum_cpop (words : List Word) :
    (words.map fun w => w.cpop.toNat).sum =
      (List.range (64 * words.length)).countP (bitAt words) := by
  induction words with
  | nil => rfl
  | cons w rest ih =>
      have hfirst : (List.range 64).countP (bitAt (w :: rest)) = w.cpop.toNat := by
        rw [toNat_cpop]
        refine List.countP_congr fun j hj => ?_
        have hlt := List.mem_range.1 hj
        rw [bitAt, Nat.div_eq_of_lt hlt, Nat.mod_eq_of_lt hlt]
        rfl
      have hrest : bitAt (w :: rest) ∘ (64 + ·) = bitAt rest := by
        funext i
        have hdiv : (64 + i) / 64 = i / 64 + 1 := by omega
        rw [Function.comp_apply, bitAt, hdiv, Nat.add_mod_left, List.getElem?_cons_succ]
        rfl
      rw [List.map_cons, List.sum_cons, ih, List.length_cons, Nat.mul_succ, Nat.add_comm _ 64,
        List.range_add, List.countP_append, hfirst, List.countP_map, hrest]

/-! ## Packed sets simulate finite sets -/

/-- The packed set has the words it needs, and its bits are the members of the
finite set. -/
structure Shows (p : PackedSet) (f : FiniteSet) : Prop where
  capacity_eq : p.capacity = f.capacity
  length_words : p.words.length = wordCount p.capacity
  bitAt_iff : ∀ i, bitAt p.words i = true ↔ i ∈ f.members

variable {f f' : FiniteSet}

theorem Shows.bitAt_eq (h : p.Shows f) (i : Nat) : bitAt p.words i = decide (i ∈ f.members) := by
  rw [Bool.eq_iff_iff, h.bitAt_iff, decide_eq_true_iff]

theorem Shows.lt_capacity (h : p.Shows f) (hi : bitAt p.words i = true) : i < p.capacity := by
  rw [h.capacity_eq]
  exact f.bounded i ((h.bitAt_iff i).1 hi)

theorem Shows.capacity_eq_iff (h : p.Shows f) (h' : p'.Shows f') :
    p'.capacity = p.capacity ↔ f'.capacity = f.capacity := by
  rw [h.capacity_eq, h'.capacity_eq]

theorem Shows.length_eq (h : p.Shows f) (h' : p'.Shows f') (hcapacity : p'.capacity = p.capacity) :
    p.words.length = p'.words.length := by
  rw [h.length_words, h'.length_words, hcapacity]

/-- Words tell the members of sets of one capacity apart. -/
theorem Shows.words_eq_iff (h : p.Shows f) (h' : p'.Shows f')
    (hcapacity : p'.capacity = p.capacity) : p.words = p'.words ↔ f.members = f'.members := by
  constructor
  · intro hwords
    ext i
    rw [← h.bitAt_iff, ← h'.bitAt_iff, hwords]
  · intro hmembers
    refine eq_of_bitAt (h.length_eq h' hcapacity) fun i => ?_
    rw [h.bitAt_eq, h'.bitAt_eq, hmembers]

theorem shows_new (capacity : Nat) : (new capacity).Shows (FiniteSet.new capacity) :=
  ⟨rfl, List.length_replicate, fun i => by simp [bitAt_new, FiniteSet.new]⟩

theorem shows_full (capacity : Nat) : (full capacity).Shows (FiniteSet.full capacity) where
  capacity_eq := capacity_trimTail _
  length_words := by
    rw [full, length_trimTail, capacity_trimTail, List.length_replicate]
  bitAt_iff i := by rw [bitAt_full, decide_eq_true_iff, FiniteSet.full, Finset.mem_range]

theorem Shows.insert (h : p.Shows f) (element : Nat) :
    SetOps.Matches (SetOps.Alike Shows) (p.insert element) (f.insert element) := by
  by_cases hlt : element < p.capacity
  · obtain ⟨words, hchange, hlength, hbits⟩ := words_change h.length_words hlt
      (fun w m => w ||| m) or Bool.or_false fun _ _ _ => BitVec.getLsbD_or
    rw [PackedSet.insert, hchange, FiniteSet.insert, dif_pos (h.capacity_eq ▸ hlt)]
    refine .ok ⟨⟨h.capacity_eq, hlength, fun i => ?_⟩, ?_⟩
    · simp [hbits, h.bitAt_eq, FiniteSet.become, or_comm]
    · simp [h.bitAt_eq, FiniteSet.become]
  · rw [PackedSet.insert, change, if_neg hlt, FiniteSet.insert, dif_neg (h.capacity_eq ▸ hlt),
      h.capacity_eq]
    exact .error _

theorem Shows.erase (h : p.Shows f) (element : Nat) :
    SetOps.Matches (SetOps.Alike Shows) (p.erase element) (f.erase element) := by
  by_cases hlt : element < p.capacity
  · obtain ⟨words, hchange, hlength, hbits⟩ := words_change h.length_words hlt
      (fun w m => w &&& ~~~m) (fun a b => a && !b) Bool.and_true getLsbD_and_not
    rw [PackedSet.erase, hchange, FiniteSet.erase, if_pos (h.capacity_eq ▸ hlt)]
    refine .ok ⟨⟨h.capacity_eq, hlength, fun i => ?_⟩, ?_⟩
    · simp [hbits, h.bitAt_eq, FiniteSet.become, and_comm]
    · simp [h.bitAt_eq, FiniteSet.become]
  · rw [PackedSet.erase, change, if_neg hlt, FiniteSet.erase, if_neg (h.capacity_eq ▸ hlt),
      h.capacity_eq]
    exact .error _

theorem shows_singleton (capacity element : Nat) :
    SetOps.Matches Shows (singleton capacity element) (FiniteSet.singleton capacity element) := by
  by_cases hlt : element < capacity
  · obtain ⟨words, hchange, hlength, hbits⟩ := words_change (shows_new capacity).length_words hlt
      (fun w m => w ||| m) or Bool.or_false fun _ _ _ => BitVec.getLsbD_or
    rw [singleton, PackedSet.insert, hchange, FiniteSet.singleton, dif_pos hlt]
    exact .ok ⟨rfl, hlength, fun i => by simp [hbits, bitAt_new]⟩
  · have hempty : ¬ element < (new capacity).capacity := hlt
    rw [singleton, PackedSet.insert, change, if_neg hempty, FiniteSet.singleton, dif_neg hlt]
    exact .error _

section Combine

variable {members : Finset Nat} {hbounded : ∀ i ∈ members, i < f.capacity}

/-- Combining word by word, bit by bit, combines the members. -/
theorem Shows.zipWith (h : p.Shows f) (h' : p'.Shows f') (hcapacity : p'.capacity = p.capacity)
    (op : Word → Word → Word) (g : Bool → Bool → Bool) (hzero : g false false = false)
    (hop : ∀ x y j, (op x y).getLsbD j = g (x.getLsbD j) (y.getLsbD j))
    (hmembers : ∀ i, g (decide (i ∈ f.members)) (decide (i ∈ f'.members)) = decide (i ∈ members)) :
    Shows ⟨p.capacity, p.words.zipWith op p'.words⟩ ⟨f.capacity, members, hbounded⟩ := by
  have hlength := h.length_eq h' hcapacity
  refine ⟨h.capacity_eq, ?_, fun i => ?_⟩
  · rw [List.length_zipWith, ← hlength, Nat.min_self, h.length_words]
  · rw [bitAt_zipWith hlength hzero hop, h.bitAt_eq, h'.bitAt_eq, hmembers, decide_eq_true_iff]

/-- A combination that shows the new members tells a change by its words. -/
theorem Shows.combine (h : p.Shows f) (h' : p'.Shows f') (hcapacity : p'.capacity = p.capacity)
    {op : Word → Word → Word}
    (hshows : Shows ⟨p.capacity, p.words.zipWith op p'.words⟩ ⟨f.capacity, members, hbounded⟩) :
    SetOps.Matches (SetOps.Alike Shows) (p.combine p' op) (.ok (f.become members hbounded)) := by
  have hwords := hshows.words_eq_iff h rfl
  rw [combine_eq hcapacity (h.length_eq h' hcapacity)]
  refine .ok ⟨hshows, ?_⟩
  rw [Bool.eq_iff_iff, bne_iff_ne, Ne, hwords]
  exact decide_eq_true_iff.symm

end Combine

theorem combine_mismatch (hcapacity : ¬ p'.capacity = p.capacity) (op : Word → Word → Word) :
    p.combine p' op = .error (.refused .capacityMismatch) := if_neg hcapacity

/-- What the words of two sets share shows what the members share. -/
theorem Shows.meet (h : p.Shows f) (h' : p'.Shows f') (hcapacity : p'.capacity = p.capacity) :
    Shows ⟨p.capacity, p.words.zipWith (fun a b => a &&& b) p'.words⟩
      ⟨f.capacity, f.members ∩ f'.members,
        fun i hi => f.bounded i (Finset.mem_of_mem_inter_left hi)⟩ :=
  h.zipWith h' hcapacity _ and rfl (fun _ _ _ => BitVec.getLsbD_and) fun i => by simp

theorem Shows.unionWith (h : p.Shows f) (h' : p'.Shows f') :
    SetOps.Matches (SetOps.Alike Shows) (p.combine p' fun a b => a ||| b)
      (f.unionWith f') := by
  rw [FiniteSet.unionWith]
  by_cases hcapacity : p'.capacity = p.capacity
  · rw [dif_pos ((h.capacity_eq_iff h').1 hcapacity)]
    refine h.combine h' hcapacity (h.zipWith h' hcapacity _ or rfl ?_ fun i => by simp)
    exact fun _ _ _ => BitVec.getLsbD_or
  · rw [dif_neg (mt (h.capacity_eq_iff h').2 hcapacity), combine_mismatch hcapacity]
    exact .error _

theorem Shows.intersectWith (h : p.Shows f) (h' : p'.Shows f') :
    SetOps.Matches (SetOps.Alike Shows) (p.combine p' fun a b => a &&& b)
      (f.intersectWith f') := by
  rw [FiniteSet.intersectWith]
  by_cases hcapacity : p'.capacity = p.capacity
  · rw [if_pos ((h.capacity_eq_iff h').1 hcapacity)]
    exact h.combine h' hcapacity (h.meet h' hcapacity)
  · rw [if_neg (mt (h.capacity_eq_iff h').2 hcapacity), combine_mismatch hcapacity]
    exact .error _

theorem Shows.contains (h : p.Shows f) (element : Nat) :
    p.contains element = .ok (decide (element ∈ f.members)) := by
  by_cases hlt : element < p.capacity
  · rw [contains_eq h.length_words hlt, h.bitAt_eq]
  · have hnot : element ∉ f.members := fun hmem => hlt (h.lt_capacity ((h.bitAt_iff _).2 hmem))
    rw [PackedSet.contains, if_pos (Nat.le_of_not_lt hlt), decide_eq_false hnot]

theorem Shows.isSubset (h : p.Shows f) (h' : p'.Shows f') : p.isSubset p' = f.isSubset f' := by
  rw [FiniteSet.isSubset]
  by_cases hcapacity : p'.capacity = p.capacity
  · have hlength := h.length_eq h' hcapacity
    have hwords := (h.meet h' hcapacity).words_eq_iff h rfl
    rw [if_pos ((h.capacity_eq_iff h').1 hcapacity), isSubset_eq hcapacity hlength]
    refine congrArg Except.ok ?_
    rw [Bool.eq_iff_iff, beq_iff_eq, hwords, Finset.inter_eq_left, decide_eq_true_iff]
  · rw [if_neg (mt (h.capacity_eq_iff h').2 hcapacity), PackedSet.isSubset, if_neg hcapacity]

theorem Shows.eq_iff (h : p.Shows f) (h' : p'.Shows f') : p = p' ↔ f = f' := by
  constructor
  · rintro rfl
    exact FiniteSet.ext_members (h.capacity_eq.symm.trans h'.capacity_eq) fun i => by
      rw [← h.bitAt_iff, h'.bitAt_iff]
  · rintro rfl
    have hcapacity : p'.capacity = p.capacity := h'.capacity_eq.trans h.capacity_eq.symm
    have hwords := (h.words_eq_iff h' hcapacity).2 rfl
    cases p
    cases p'
    cases hcapacity
    cases hwords
    rfl

theorem Shows.isEmpty (h : p.Shows f) : p.isEmpty = decide (f.members = ∅) := by
  have hwords := h.words_eq_iff (shows_new p.capacity) rfl
  have hzero : p.isEmpty = true ↔ p.words = (new p.capacity).words := by
    rw [PackedSet.isEmpty, List.all_eq_true, new, List.eq_replicate_iff]
    simp [h.length_words]
  rw [Bool.eq_iff_iff, hzero, hwords, decide_eq_true_iff]
  rfl

theorem Shows.count (h : p.Shows f) : p.count = f.members.card := by
  have hsort : (List.range (64 * p.words.length)).filter (bitAt p.words) = f.members.sort := by
    refine FiniteSet.eq_sort (List.Pairwise.filter _ List.pairwise_lt_range) fun i => ?_
    rw [List.mem_filter, List.mem_range, h.bitAt_iff]
    refine ⟨And.right, fun hmem => ⟨?_, hmem⟩⟩
    have hword := lt_of_bitAt ((h.bitAt_iff i).2 hmem)
    omega
  rw [PackedSet.count, sum_cpop, List.countP_eq_length_filter, hsort, Finset.length_sort]

theorem Shows.elements (h : p.Shows f) : p.iter.collect = f.members.sort :=
  FiniteSet.eq_sort (Cursor.pairwise_collect _) fun i => by
    rw [Cursor.mem_collect, pending_iter, h.bitAt_iff]

/-- **Packed sets simulate finite sets**. -/
theorem simulates : SetOps.Simulates ops FiniteSet.ops Shows where
  new := shows_new
  full := shows_full
  singleton := shows_singleton
  insert h element := h.insert element
  erase h element := h.erase element
  unionWith h h' := h.unionWith h'
  intersectWith h h' := h.intersectWith h'
  capacity h := h.capacity_eq
  contains h element := h.contains element
  count h := h.count
  isEmpty h := h.isEmpty
  isSubset h h' := h.isSubset h'
  equal h h' := decide_eq_decide.2 (h.eq_iff h')
  elements h := h.elements

end PackedSet

/-! ## Any calls -/

/-- **Bit sets and packed sets are finite sets.**  Whatever is called on them,
all calls answer, or are refused, as for finite sets.  The sets that the calls
lead to have the capacity and the members of the finite sets, without a bit at
or above the capacity, and stepping through one yields its members in ascending
order and ends. -/
theorem BitSet.transcript_exact (calls : List SetCall) :
    BitSet.ops.transcript calls = FiniteSet.ops.transcript calls ∧
    PackedSet.ops.transcript calls = FiniteSet.ops.transcript calls ∧
    ∀ x,
      (BitSet.ops.after calls x).Shows (FiniteSet.ops.after calls x) ∧
      (PackedSet.ops.after calls x).Shows (FiniteSet.ops.after calls x) ∧
      (∀ i, (BitSet.ops.after calls x).bits.testBit i = true →
        i < (BitSet.ops.after calls x).capacity) ∧
      (∀ i, PackedSet.bitAt (PackedSet.ops.after calls x).words i = true →
        i < (PackedSet.ops.after calls x).capacity) ∧
      (PackedSet.ops.after calls x).iter.Yields (FiniteSet.ops.after calls x).members.sort := by
  refine ⟨BitSet.simulates.transcript_eq calls, PackedSet.simulates.transcript_eq calls,
    fun x => ?_⟩
  have hshows : (PackedSet.ops.after calls x).Shows (FiniteSet.ops.after calls x) :=
    PackedSet.simulates.related_after calls x
  refine ⟨BitSet.simulates.related_after calls x, hshows,
    fun i hi => lt_capacity_of_contains hi, fun i hi => hshows.lt_capacity hi, ?_⟩
  rw [← hshows.elements]
  exact PackedSet.Cursor.yields_collect _

end MethodFlow
