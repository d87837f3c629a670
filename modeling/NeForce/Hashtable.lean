import NeForce.FlatTable

/-! # The chained hash table

The nodes of the chained hash table are in one global list, those of a bucket next to each other, and each bucket
names the first of its nodes.  `chain` is that list from `head_` to `tail_`, each node with its address; address `0` is
the null pointer.  Modelled are copying and rehashing, which build the list up node by node. -/

namespace NeForce.Chained

open Flat

variable {K V : Type}

structure Hashtable (V : Type) where
  chain : List (ℕ × V)
  buckets : List ℕ
  size : ℕ
  maxLoadFactor : ℚ

/-- `next_size`, in the platform's list of primes. -/
def nextSize (primes : List ℕ) (n : ℕ) : ℕ := (primes.find? (n ≤ ·)).getD (primes.getLastD 0)

/-- `bucket_index_value` -/
def bucketIndex (k : Keying K V) (v : V) (n : ℕ) : ℕ := if n = 0 then 0 else k.hasher (k.extracter v) % n

/-- `link_run_front`: the node before the head of its bucket. -/
def linkRunFront (runHead : ℕ) (e : ℕ × V) : List (ℕ × V) → List (ℕ × V)
  | [] => [e]
  | e' :: chain => if e'.1 = runHead then e :: e' :: chain else e' :: linkRunFront runHead e chain

/-- `link_new_run`: the node at the end. -/
def linkNewRun (e : ℕ × V) (chain : List (ℕ × V)) : List (ℕ × V) := chain ++ [e]

/-- The node in front of its bucket, or as a bucket of its own. -/
def link (buckets : List ℕ) (b : ℕ) (e : ℕ × V) (chain : List (ℕ × V)) : List (ℕ × V) :=
  if buckets.getD b 0 ≠ 0 then linkRunFront (buckets.getD b 0) e chain else linkNewRun e chain

/-- `delete_node`: destroy the element, give the node back. -/
def deleteNode (a : ℕ) : List Life := [.destroy a]

/-- `new_node`: whether the constructor of the element throws, and what is constructed and destroyed. -/
def newNode (a : ℕ) (throws : Bool) : Bool × List Life := if throws then (true, deleteNode a) else (false, [.construct a])

/-- The loop of `copy_from`; the nodes are allocated at `a`, `a + 1`, …, and `throws a` says that the constructor of the
element of node `a` throws. -/
def copyNodes (k : Keying K V) (throws : ℕ → Bool) : List (ℕ × V) → ℕ → List (ℕ × V) → List ℕ → List Life →
    Bool × List (ℕ × V) × List ℕ × List Life
  | [], _, chain, buckets, log => (false, chain, buckets, log)
  | e :: rest, a, chain, buckets, log =>
      let b := bucketIndex k e.2 buckets.length
      match newNode a (throws a) with
      | (true, life) => (true, chain, buckets, log ++ life)
      | (false, life) => copyNodes k throws rest (a + 1) (link buckets b (a, e.2) chain) (buckets.set b a) (log ++ life)

/-- `clear`, and what it destroys. -/
def Hashtable.clear (t : Hashtable V) : Hashtable V × List Life :=
  ({ t with chain := [], buckets := t.buckets.map fun _ => 0, size := 0 }, t.chain.flatMap fun e => deleteNode e.1)

/-- `copy_from`; the first node is allocated at `a`. -/
def Hashtable.copyFrom (t other : Hashtable V) (k : Keying K V) (throws : ℕ → Bool) (a : ℕ) : Copied (Hashtable V) :=
  match copyNodes k throws other.chain a [] (other.buckets.map fun _ => 0) [] with
  | (false, chain, buckets, log) => .done { t with chain := chain, buckets := buckets, size := other.size } log
  | (true, chain, buckets, log) =>
      let (t, destroyed) := { t with chain := chain, buckets := buckets : Hashtable V }.clear
      .thrown t (log ++ destroyed)

/-- The loop of `rehash`; `throws c` says that call `c` of the hash function throws. -/
def relink (k : Keying K V) (throws : ℕ → Bool) : List (ℕ × V) → ℕ → List (ℕ × V) → List ℕ → Bool × List (ℕ × V) × List ℕ
  | [], _, chain, buckets => (false, chain, buckets)
  | e :: rest, c, chain, buckets =>
      if throws c then (true, chain, buckets)
      else
        let b := bucketIndex k e.2 buckets.length
        relink k throws rest (c + 1) (link buckets b e chain) (buckets.set b e.1)

/-- How a rehash ends: in a table, or in an exception that leaves a table. -/
inductive Rehash (V : Type)
  | done (t : Hashtable V)
  | thrown (t : Hashtable V)

def Hashtable.rehash (t : Hashtable V) (k : Keying K V) (primes : List ℕ) (throws : ℕ → Bool) (newSize : ℕ) : Rehash V :=
  let target := max newSize (slotsFor t.size t.maxLoadFactor)
  if target ≤ t.buckets.length then .done t
  else
    match relink k throws t.chain 0 [] (List.replicate (nextSize primes target) 0) with
    | (false, chain, buckets) => .done { t with chain := chain, buckets := buckets }
    | (true, chain, _) => .thrown { t with chain := chain }

end NeForce.Chained

/-! ## What a failed copy destroys

When the constructor of an element throws, a copy of a hash table destroys what it has constructed so far.  Replaying
its constructions and destructions (`alive`) shows whether it destroys just that: both tables also destroy
the element whose constructor threw, the flat one because it has written the byte of the slot before, the
chained one because `new_node` gives the node back with `delete_node`.  So the cleanup is right where no
constructor throws, and only there (`copy_cleansUp_iff`). -/

namespace NeForce.Flat

variable {V T : Type}

/-- Replay constructions and destructions: the objects that are alive at the end, unless something is constructed twice or
destroyed while it is not alive. -/
def alive : List Life → List ℕ → Option (List ℕ)
  | [], l => some l
  | .construct i :: log, l => if i ∈ l then none else alive log (i :: l)
  | .destroy i :: log, l => if i ∈ l then alive log (l.erase i) else none

/-- An exception leaves nothing alive, and destroys nothing that is not. -/
def Copied.CleansUp : Copied T → Prop
  | .done _ _ => True
  | .thrown _ log => alive log [] = some []

/-- What was never constructed cannot be destroyed. -/
theorem alive_of_unconstructed {log : List Life} {l : List ℕ} {a : ℕ} (hd : .destroy a ∈ log) (hc : .construct a ∉ log)
    (hl : a ∉ l) : alive log l = none := by
  induction log generalizing l with
  | nil => cases hd
  | cons x log ih =>
      have hc' : Life.construct a ∉ log := fun h => hc (List.mem_cons_of_mem _ h)
      cases x with
      | construct i =>
          rw [alive]
          split
          · rfl
          · have hne : a ≠ i := by
              rintro rfl
              exact hc List.mem_cons_self
            refine ih ((List.mem_cons.mp hd).resolve_left (by simp)) hc' ?_
            rw [List.mem_cons, not_or]
            exact ⟨hne, hl⟩
      | destroy i =>
          rw [alive]
          split
          · rename_i hi
            have hne : a ≠ i := by
              rintro rfl
              exact hl hi
            refine ih ((List.mem_cons.mp hd).resolve_left (by simpa using hne)) hc' ?_
            exact fun h => hl (List.mem_of_mem_erase h)
          · rfl

/-! ### The flat table -/

theorem mem_tagged {s : Slots V} {i : ℕ} :
    i ∈ s.tagged ↔ i < s.capacity ∧ s.metadata i ≠ htEmpty ∧ s.metadata i ≠ htDeleted := by
  rw [Slots.tagged, List.mem_filter, List.mem_range, decide_eq_true_eq]

section

variable {other s s' : Slots V} {throws : ℕ → Bool} {log log' : List Life} {n i : ℕ}

/-- Without an exception the loop goes through. -/
theorem copySlots_nothrow (s : Slots V) (log : List Life) (h : ∀ j ∈ other.tagged, throws j = false) (hn : i + n ≤ other.capacity) :
    (copySlots other throws n i s log).1 = false := by
  induction n generalizing i s log with
  | zero => rfl
  | succ n ih =>
      rw [copySlots]
      split
      · rename_i ht
        rw [if_neg (by rw [h i (mem_tagged.mpr ⟨by omega, ht⟩)]; simp)]
        exact ih _ _ (by omega)
      · exact ih _ _ (by omega)

/-- At an exception the byte of the slot that failed is written, and only earlier elements are constructed. -/
theorem copySlots_thrown (h : copySlots other throws n i s log = (true, s', log')) :
    s'.capacity = s.capacity ∧ ∃ a, i ≤ a ∧ a < i + n ∧ s'.metadata a = other.metadata a ∧
      (other.metadata a ≠ htEmpty ∧ other.metadata a ≠ htDeleted) ∧
      ∃ m, log' = log ++ m ∧ ∀ x ∈ m, ∃ j < a, x = .construct j := by
  induction n generalizing i s log with
  | zero => cases h
  | succ n ih =>
      rw [copySlots] at h
      split at h
      · rename_i ht
        split at h
        · simp only [Prod.mk.injEq, true_and] at h
          obtain ⟨rfl, rfl⟩ := h
          exact ⟨rfl, i, le_rfl, by omega, Function.update_self .., ht, [], by simp, by simp⟩
        · obtain ⟨hc, a, h1, h2, h3, h4, m, rfl, hm⟩ := ih h
          refine ⟨hc, a, by omega, by omega, h3, h4, .construct i :: m, by simp, fun x hx => ?_⟩
          rcases List.mem_cons.mp hx with rfl | hx
          · exact ⟨i, by omega, rfl⟩
          · exact hm x hx
      · obtain ⟨hc, a, h1, h2, h3⟩ := ih h
        exact ⟨hc, a, by omega, by omega, h3⟩

theorem copySlots_throws (s : Slots V) (log : List Life) (h : ∃ j ∈ other.tagged, i ≤ j ∧ throws j = true) (hn : i + n = other.capacity) :
    (copySlots other throws n i s log).1 = true := by
  obtain ⟨j, hj, hij, ht⟩ := h
  obtain ⟨hlt, htag⟩ := mem_tagged.mp hj
  induction n generalizing i s log with
  | zero => omega
  | succ n ih =>
      rw [copySlots]
      rcases Nat.lt_or_eq_of_le hij with hlt' | rfl
      · split
        · split
          · rfl
          · exact ih _ _ (by omega) hlt'
        · exact ih _ _ (by omega) hlt'
      · rw [if_pos htag, if_pos ht]

end

theorem copyFrom_cleansUp_iff {t other : Table V} {throws : ℕ → Bool} (ht : t.slots.tagged = []) :
    (t.copyFrom other throws).CleansUp ↔ ∀ i ∈ other.slots.tagged, throws i = false := by
  rw [Table.copyFrom]
  split
  · rename_i h0
    refine iff_of_true trivial fun i hi => ?_
    have := (mem_tagged.mp hi).1
    omega
  · rename_i h0
    simp only [ht, ite_self, List.map_nil]
    set t' : Table V := if t.slots.capacity ≠ other.slots.capacity then _ else _ with ht'
    have hcap : t'.slots.capacity = other.slots.capacity := by
      rw [ht']
      split
      · rfl
      · rename_i hc
        exact not_not.mp hc
    constructor
    · intro h i hi
      by_contra hthrow
      have hfail := copySlots_throws t'.slots [] ⟨i, hi, Nat.zero_le i, Bool.eq_true_of_not_eq_false hthrow⟩
        (Nat.zero_add _)
      generalize hr : copySlots other.slots throws other.slots.capacity 0 t'.slots [] = r at h hfail
      obtain ⟨b, s', log'⟩ := r
      obtain rfl : b = true := hfail
      obtain ⟨hc, a, _, ha, hbyte, htag, m, hlog, hm⟩ := copySlots_thrown hr
      have hdead : alive (log' ++ s'.tagged.map .destroy) [] = none := by
        refine alive_of_unconstructed (a := a) ?_ ?_ (List.not_mem_nil)
        · refine List.mem_append_right _ (List.mem_map_of_mem (mem_tagged.mpr ⟨?_, ?_⟩))
          · rw [hc, hcap]
            omega
          · rw [hbyte]
            exact htag
        · rw [hlog, List.nil_append, List.mem_append, not_or]
          refine ⟨fun hmem => ?_, by simp⟩
          obtain ⟨j, hj, e⟩ := hm _ hmem
          obtain rfl := Life.construct.inj e
          omega
      have hclean : alive (log' ++ s'.tagged.map .destroy) [] = some [] := h
      rw [hdead] at hclean
      cases hclean
    · intro h
      have hok := copySlots_nothrow t'.slots [] h (Nat.zero_add _).le
      generalize copySlots other.slots throws other.slots.capacity 0 t'.slots [] = r at hok ⊢
      obtain ⟨b, s', log'⟩ := r
      obtain rfl : b = false := hok
      trivial

end NeForce.Flat

namespace NeForce.Chained

open Flat

variable {K V : Type}

/-! ### The chained table -/

section

variable {k : Keying K V} {throws : ℕ → Bool} {l chain chain' : List (ℕ × V)} {buckets buckets' : List ℕ}
  {log log' : List Life} {a : ℕ}

theorem copyNodes_nothrow (chain : List (ℕ × V)) (buckets : List ℕ) (log : List Life) (h : ∀ i < l.length, throws (a + i) = false) :
    (copyNodes k throws l a chain buckets log).1 = false := by
  induction l generalizing a chain buckets log with
  | nil => rfl
  | cons e l ih =>
      have h0 : throws a = false := h 0 (by simp)
      rw [copyNodes, newNode, h0]
      refine ih _ _ _ fun i hi => ?_
      rw [Nat.add_assoc, Nat.add_comm 1]
      exact h (i + 1) (by simpa using hi)

/-- At an exception the node whose constructor threw is destroyed, and only earlier ones are constructed. -/
theorem copyNodes_thrown (chain : List (ℕ × V)) (buckets : List ℕ) (log : List Life) (h : ∃ i < l.length, throws (a + i) = true) :
    ∃ chain' buckets' m b, copyNodes k throws l a chain buckets log = (true, chain', buckets', log ++ m ++ [.destroy b]) ∧
      a ≤ b ∧ ∀ x ∈ m, ∃ j < b, x = .construct j := by
  induction l generalizing a chain buckets log with
  | nil =>
      obtain ⟨i, hi, _⟩ := h
      cases hi
  | cons e l ih =>
      rw [copyNodes, newNode]
      cases h0 : throws a with
      | true => exact ⟨chain, buckets, [], a, by simp [deleteNode], le_rfl, by simp⟩
      | false =>
          obtain ⟨i, hi, ht⟩ := h
          cases i with
          | zero =>
              rw [Nat.add_zero, h0] at ht
              cases ht
          | succ i =>
              obtain ⟨c, b, m, d, e', hle, hm⟩ := ih (a := a + 1)
                (link buckets (bucketIndex k e.2 buckets.length) (a, e.2) chain)
                (buckets.set (bucketIndex k e.2 buckets.length) a) (log ++ [.construct a])
                ⟨i, by simpa using hi, by rw [Nat.add_assoc, Nat.add_comm 1]; exact ht⟩
              refine ⟨c, b, .construct a :: m, d, ?_, by omega, fun x hx => ?_⟩
              · rw [List.append_cons log]
                exact e'
              · rcases List.mem_cons.mp hx with rfl | hx
                · exact ⟨a, by omega, rfl⟩
                · exact hm x hx

end

theorem chained_cleansUp_iff (t other : Hashtable V) (k : Keying K V) (throws : ℕ → Bool) (a : ℕ) :
    (t.copyFrom other k throws a).CleansUp ↔ ∀ i < other.chain.length, throws (a + i) = false := by
  rw [Hashtable.copyFrom]
  constructor
  · intro h
    by_contra hthrow
    simp only [not_forall, Bool.not_eq_false, exists_prop] at hthrow
    obtain ⟨c, b, m, d, e, _, hm⟩ := copyNodes_thrown (k := k) [] (other.buckets.map fun _ => 0) [] hthrow
    rw [e] at h
    have hdead : ∀ rest : List Life, (∀ x ∈ rest, ∃ j, x = .destroy j) →
        alive ([] ++ m ++ [.destroy d] ++ rest) [] = none := by
      intro rest hrest
      refine alive_of_unconstructed (a := d) (by simp) ?_ List.not_mem_nil
      rw [List.nil_append, List.mem_append, List.mem_append, not_or, not_or]
      refine ⟨⟨fun hmem => ?_, by simp⟩, fun hmem => ?_⟩
      · obtain ⟨j, hj, e⟩ := hm _ hmem
        obtain rfl := Life.construct.inj e
        omega
      · obtain ⟨j, e⟩ := hrest _ hmem
        cases e
    have hclean : alive ([] ++ m ++ [.destroy d] ++ c.flatMap fun e => deleteNode e.1) [] = some [] := h
    rw [hdead _ fun x hx => ?_] at hclean
    · cases hclean
    · obtain ⟨e, _, he⟩ := List.mem_flatMap.mp hx
      exact ⟨e.1, List.mem_singleton.mp he⟩
  · intro h
    have hok := copyNodes_nothrow (k := k) [] (other.buckets.map fun _ => 0) [] h
    generalize copyNodes k throws other.chain a [] (other.buckets.map fun _ => 0) [] = r at hok ⊢
    obtain ⟨b, chain', buckets', log'⟩ := r
    obtain rfl : b = false := hok
    trivial

/-- **The cleanup is right where no constructor throws, and only there**: for a copy of a flat table into one without
elements, for a copy of a chained table, and for a single node. -/
theorem copy_cleansUp_iff {t other : Table V} (ht : t.slots.tagged = []) (throws : ℕ → Bool) (c other' : Hashtable V)
    (k : Keying K V) (a : ℕ) :
    ((t.copyFrom other throws).CleansUp ↔ ∀ i ∈ other.slots.tagged, throws i = false) ∧
    ((c.copyFrom other' k throws a).CleansUp ↔ ∀ i < other'.chain.length, throws (a + i) = false) ∧
    (((newNode a (throws a)).1 = true → alive (newNode a (throws a)).2 [] = some []) ↔ throws a = false) := by
  refine ⟨copyFrom_cleansUp_iff ht, chained_cleansUp_iff c other' k throws a, ?_⟩
  cases h : throws a with
  | true => simp [newNode, deleteNode, alive]
  | false => simp [newNode]

/-- A flat table with one element, in slot 2. -/
def oneElement : Table ℕ := ⟨(Slots.allocate 16).construct 2 20 5, 1, 14, 0, 7 / 8, 1⟩

/-- A chained table with one element. -/
def oneNode : Hashtable ℕ := ⟨[(1, 20)], [1, 0], 1, 1⟩

/-- A table without arrays. -/
def noElements : Table ℕ := ⟨Slots.allocate 0, 0, 0, 0, 7 / 8, 0⟩

/-- The constructor of the element throws: both copies destroy it. -/
theorem copy_destroys_unconstructed :
    ¬ (noElements.copyFrom oneElement fun _ => true).CleansUp ∧
      ¬ (oneNode.copyFrom oneNode (⟨id, fun a b => a == b, id⟩ : Keying ℕ ℕ) (fun _ => true) 2).CleansUp ∧
      alive (newNode 2 true).2 [] = none := by
  refine ⟨?_, ?_, rfl⟩
  · show ¬ alive [.destroy 2] [] = some []
    decide
  · show ¬ alive [.destroy 2] [] = some []
    decide

/-- No constructor throws where there is an element. -/
theorem copy_cleansUp_iff_sample : (noElements.copyFrom oneElement fun i => i == 3).CleansUp :=
  (copy_cleansUp_iff rfl (fun i => i == 3) oneNode oneNode
    (⟨id, fun a b => a == b, id⟩ : Keying ℕ ℕ) 2).1.mpr (by decide)

end NeForce.Chained
