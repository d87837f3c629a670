import Mathlib.Data.Set.Lattice
import NeForce.Bitmap

/-! # The Bloom filter

A filter has `m` bits, `k` hash functions and a bitmap.  The positions of a key are `h1 + i * h2` modulo `m` for `i`
below `k`, with `h1` mixed from the hash of the key and `h2` rotated out of `h1`.

A program works with filters of the same parameters, one for each name.  Next to it goes the history of each name, the
set of the keys that its filter has to contain.  `NoFalseNegatives` says that no call of a program fails, that every
filter contains its history, and that a filter that is restored from the bytes of another one agrees with it.  This is
so exactly when the number of bits is one that the iterators of the bitmap can count to, `2 ^ 63 - 1` at most, or the
constructor finds no memory (`no_false_negatives_iff`). -/

namespace NeForce

structure BloomFilter where
  m : UInt64
  k : UInt64
  bits : Bitmap
  deriving DecidableEq, Repr

namespace BloomFilter

variable {T : Type} (alloc : UInt64 → Bool) (hash : T → UInt64)

/-! ### Hashing -/

def lowLevelHash (x : UInt64) : UInt64 :=
  let x := x + 0x9e3779b97f4a7c15
  let x := x ^^^ (x >>> 33)
  let x := x * 0xff51afd7ed558ccd
  let x := x ^^^ (x >>> 33)
  let x := x * 0xc4ceb9fe1a85ec53
  x ^^^ (x >>> 33)

def rotateL64 (x : UInt64) (s : UInt32) : UInt64 :=
  let shift := s &&& 63
  (x <<< shift.toUInt64) ||| (x >>> ((0 - shift) &&& 63).toUInt64)

def hashValues (key : T) : UInt64 × UInt64 :=
  let h1 := lowLevelHash (hash key)
  let h2 := rotateL64 h1 17
  (h1, if h2 = 0 then 1 else h2)

variable (f : BloomFilter)

def nthHash (i h1 h2 : UInt64) : UInt64 := (h1 + i * h2) % f.m

/-! ### The calls -/

/-- The constructor from the two parameters. -/
def new (m k : UInt64) : Except Failure BloomFilter := do
  let bits ← Bitmap.new alloc m
  if m = 0 ∨ k = 0 then .error (.valueException "m and k must be positive")
  else .ok ⟨m, k, bits⟩

def contains (key : T) : Except Failure Bool :=
  let h := hashValues hash key
  (List.range f.k.toNat).allM fun i => f.bits.get (f.nthHash (UInt64.ofNat i) h.1 h.2)

def insert (key : T) : Except Failure BloomFilter := do
  let h := hashValues hash key
  let bits ← forLoop f.k.toNat
    (fun i (bits : Bitmap) => bits.put (f.nthHash (UInt64.ofNat i) h.1 h.2) true) f.bits
  .ok { f with bits }

def clear : Except Failure BloomFilter := do
  let bits ← f.bits.fill false
  .ok { f with bits }

/-- A filter merged with itself reads each bit before it writes the same bit. -/
def merge (other : BloomFilter) : Except Failure BloomFilter :=
  if f.m ≠ other.m ∨ f.k ≠ other.k then
    .error (.valueException "Filters must have same parameters to merge")
  else do
    let bits ← forLoop f.m.toNat (fun i (bits : Bitmap) => do
      let set ← other.bits.get (UInt64.ofNat i)
      if set then bits.put (UInt64.ofNat i) true else .ok bits) f.bits
    .ok { f with bits }

def intersect (other : BloomFilter) : Except Failure BloomFilter :=
  if f.m ≠ other.m ∨ f.k ≠ other.k then
    .error (.valueException "Filters must have same parameters for intersection")
  else do
    let result ← new alloc f.m f.k
    let bits ← forLoop f.m.toNat (fun i (bits : Bitmap) => do
      let set ← f.bits.get (UInt64.ofNat i)
      let both ← if set then other.bits.get (UInt64.ofNat i) else .ok false
      bits.put (UInt64.ofNat i) both) result.bits
    .ok { result with bits }

/-- The copy constructor, and the assignment, which swaps with a copy. -/
def copy : Except Failure BloomFilter := do
  let bits ← f.bits.copy alloc
  .ok { f with bits }

def unite (other : BloomFilter) : Except Failure BloomFilter := do
  let result ← f.copy alloc
  result.merge other

/-- `bytes[i / 8] |= (1 << (i % 8))` -/
def setByteBit (bytes : List (BitVec 8)) (i : ℕ) : Except Failure (List (BitVec 8)) :=
  match bytes[i / 8]? with
  | some x => .ok (bytes.set (i / 8) (x ||| 1#8 <<< (i % 8)))
  | none => .error .outOfBounds

/-- `((bytes[i / 8] >> (i % 8)) & 1) != 0` -/
def byteBit (bytes : List (BitVec 8)) (i : ℕ) : Except Failure Bool :=
  match bytes[i / 8]? with
  | some x => .ok ((x >>> (i % 8)) &&& 1#8 != 0#8)
  | none => .error .outOfBounds

def toBytes : Except Failure (List (BitVec 8)) :=
  forLoop f.m.toNat (fun i bytes => do
    let set ← f.bits.get (UInt64.ofNat i)
    if set then setByteBit bytes i else .ok bytes) (List.replicate ((f.m + 7) / 8).toNat 0#8)

def fromBytes (bytes : List (BitVec 8)) : Except Failure BloomFilter :=
  if UInt64.ofNat bytes.length * 8 < f.m then .error (.valueException "Insufficient byte data")
  else do
    let bits ← forLoop f.m.toNat (fun i (bits : Bitmap) => do
      let set ← byteBit bytes i
      bits.put (UInt64.ofNat i) set) f.bits
    .ok { f with bits }

/-! ### Programs and histories -/

/-- A call of a program, with the names of its filters. -/
inductive Call (T : Type)
  | insert (f : ℕ) (key : T)
  | merge (f g : ℕ)
  /-- `r = f.unite(g)` -/
  | unite (r f g : ℕ)
  /-- `r = f.intersect(g)` -/
  | intersect (r f g : ℕ)
  /-- A copy of `f` under the name `r`, constructed or assigned. -/
  | copy (r f : ℕ)
  | clear (f : ℕ)
  /-- `g.from_bytes(f.to_bytes())` -/
  | fromBytes (g f : ℕ)

def set (s : ℕ → α) (r : ℕ) (a : α) : ℕ → α := fun f => if f = r then a else s f

def exec (s : ℕ → BloomFilter) : Call T → Except Failure (ℕ → BloomFilter)
  | .insert f key => do .ok (set s f (← (s f).insert hash key))
  | .merge f g => do .ok (set s f (← (s f).merge (s g)))
  | .unite r f g => do .ok (set s r (← (s f).unite alloc (s g)))
  | .intersect r f g => do .ok (set s r (← (s f).intersect alloc (s g)))
  | .copy r f => do .ok (set s r (← (s f).copy alloc))
  | .clear f => do .ok (set s f (← (s f).clear))
  | .fromBytes g f => do .ok (set s g (← (s g).fromBytes (← (s f).toBytes)))

/-- The keys each filter has to contain. -/
def history (H : ℕ → Set T) : Call T → ℕ → Set T
  | .insert f key => set H f (H f ∪ {key})
  | .merge f g => set H f (H f ∪ H g)
  | .unite r f g => set H r (H f ∪ H g)
  | .intersect r f g => set H r (H f ∩ H g)
  | .copy r f => set H r (H f)
  | .clear f => set H f ∅
  | .fromBytes g f => set H g (H f)

/-- What a program leaves: every filter contains the keys of its history, and a filter restored from the bytes of
another one contains what that one contains. -/
structure Sound (hash : T → UInt64) (H : ℕ → Set T) (s : ℕ → BloomFilter) : Prop where
  contains : ∀ f key, key ∈ H f → (s f).contains hash key = .ok true
  restores : ∀ f g, ∃ r, (s f).toBytes >>= (s g).fromBytes = .ok r ∧
    ∀ key, ∃ answer, r.contains hash key = .ok answer ∧ (s f).contains hash key = .ok answer

/-- All programs over filters with `m` bits and `k` hash functions, from new filters on. -/
def NoFalseNegatives (m k : UInt64) : Prop :=
  ∀ f₀, new alloc m k = .ok f₀ → ∀ calls : List (Call T), ∃ s,
    calls.foldlM (exec alloc hash) (fun _ => f₀) = .ok s ∧ Sound hash (calls.foldl history fun _ => ∅) s

end BloomFilter

end NeForce

/-! ## No false negatives

`Of m k f` says that a filter has the given parameters and the words for them.  Each call has one lemma about such
filters, which says what becomes of their bits.  A filter holds a key when all positions of the key are set
(`Holds`), and a call keeps that every filter holds the keys of its history (`exec_inv`). -/

namespace NeForce.BloomFilter

variable {T : Type} {alloc : UInt64 → Bool} {hash : T → UInt64} {m k : UInt64} {f g : BloomFilter} {ok : Failure → Prop}
  {key : T} {i j : ℕ} {s : ℕ → BloomFilter} {H : ℕ → Set T}

open BitRow

structure Of (m k : UInt64) (f : BloomFilter) : Prop where
  bitSize : f.m = m
  hashCount : f.k = k
  bits : f.bits.Sized m.toNat

/-- Position `i` of a key. -/
def index (hash : T → UInt64) (m : UInt64) (key : T) (i : ℕ) : ℕ :=
  (((hashValues hash key).1 + UInt64.ofNat i * (hashValues hash key).2) % m).toNat

def Holds (hash : T → UInt64) (m k : UInt64) (f : BloomFilter) (key : T) : Prop :=
  ∀ i < k.toNat, f.bits.bit (index hash m key i) = true

theorem index_lt (hm : m ≠ 0) : index hash m key i < m.toNat := by
  rw [index, UInt64.toNat_mod]
  exact Nat.mod_lt _ (Nat.pos_of_ne_zero fun h => hm (UInt64.toNat_inj.mp h))

theorem toNat_ofNat_of_lt (h : i < m.toNat) : (UInt64.ofNat i).toNat = i :=
  Nat.mod_eq_of_lt (Nat.lt_trans h m.toNat_lt)

/-! ### The calls, one by one -/

theorem get_index {b : Bitmap} (hlt : m.toNat < 2 ^ 63) (hb : b.Sized m.toNat) (hi : i < m.toNat) :
    b.get (UInt64.ofNat i) = .ok (b.bit i) := by
  have h := Bitmap.get_ok (n := UInt64.ofNat i) hlt.le hb (by rwa [toNat_ofNat_of_lt hi])
  rwa [toNat_ofNat_of_lt hi] at h

theorem put_index {b : Bitmap} {v : Bool} (hlt : m.toNat < 2 ^ 63) (hb : b.Sized m.toNat) (hi : i < m.toNat) :
    Ensures ok (b.put (UInt64.ofNat i) v) fun b' => b'.Sized m.toNat ∧ ∀ j, b'.bit j = if j = i then v else b.bit j := by
  have h := Bitmap.put_ok (n := UInt64.ofNat i) (v := v) hlt.le hb (by rwa [toNat_ofNat_of_lt hi]) ok
  rwa [toNat_ofNat_of_lt hi] at h

/-- `contains` answers whether the key is held. -/
theorem contains_ok (hm : m ≠ 0) (hlt : m.toNat < 2 ^ 63) (hf : Of m k f) :
    f.contains hash key = .ok ((List.range k.toNat).all fun i => f.bits.bit (index hash m key i)) := by
  obtain ⟨rfl, rfl, hbits⟩ := hf
  exact allM_ok fun i _ => Bitmap.get_ok hlt.le hbits (index_lt hm)

theorem contains_of_holds (hm : m ≠ 0) (hlt : m.toNat < 2 ^ 63) (hf : Of m k f) (h : Holds hash m k f key) :
    f.contains hash key = .ok true := by
  rw [contains_ok hm hlt hf, List.all_eq_true.mpr fun i hi => h i (List.mem_range.mp hi)]

theorem insert_ok (hm : m ≠ 0) (hlt : m.toNat < 2 ^ 63) (hf : Of m k f) : Ensures ok (f.insert hash key) fun f' =>
    Of m k f' ∧ (∀ j, f.bits.bit j = true → f'.bits.bit j = true) ∧ Holds hash m k f' key := by
  obtain ⟨rfl, rfl, hbits⟩ := hf
  refine (Ensures.forLoop (P := fun i bits => bits.Sized f.m.toNat ∧ (∀ j, f.bits.bit j = true → bits.bit j = true) ∧
    ∀ i' < i, bits.bit (index hash f.m key i') = true) ?_ ?_).bind ?_
  · exact ⟨hbits, fun _ h => h, fun i' h => absurd h (Nat.not_lt_zero i')⟩
  · intro i _ bits ⟨hbits, hkeep, hset⟩
    refine (Bitmap.put_ok hlt.le hbits (show index hash f.m key i < _ from index_lt hm) ok).mono
      fun bits' ⟨hbits', hbit⟩ => ⟨hbits', fun j hj => ?_, fun i' hi' => ?_⟩
    · rw [hbit j, hkeep j hj, ite_self]
    · rw [hbit]
      by_cases h : i' = i
      · rw [h]
        exact if_pos rfl
      · rw [hset i' (by omega), ite_self]
  · intro bits ⟨hbits, hkeep, hset⟩
    exact ⟨⟨rfl, rfl, hbits⟩, hkeep, hset⟩

theorem clear_ok (hf : Of m k f) : Ensures ok f.clear (Of m k) := by
  obtain ⟨rfl, rfl, hbits⟩ := hf
  exact (Bitmap.fill_ok ok hbits).bind fun bits ⟨hbits, _⟩ => ⟨rfl, rfl, hbits⟩

/-- The part of a row in front of an index that moves on by one. -/
theorem below_succ {b : ℕ → Bool} (h : j ≠ i) : (decide (j < i + 1) && b j) = (decide (j < i) && b j) := by
  rw [decide_eq_decide.mpr (by omega : j < i + 1 ↔ j < i)]

theorem merge_ok (hlt : m.toNat < 2 ^ 63) (hf : Of m k f) (hg : Of m k g) : Ensures ok (f.merge g) fun f' =>
    Of m k f' ∧ ∀ j < m.toNat, f'.bits.bit j = (f.bits.bit j || g.bits.bit j) := by
  obtain ⟨rfl, rfl, hbits⟩ := hf
  unfold merge
  rw [if_neg (by rw [hg.bitSize, hg.hashCount]; simp)]
  refine (Ensures.forLoop (P := fun i bits => bits.Sized f.m.toNat ∧
    ∀ j, bits.bit j = (f.bits.bit j || (decide (j < i) && g.bits.bit j))) ?_ ?_).bind
    fun bits ⟨hbits, hbit⟩ => ⟨⟨rfl, rfl, hbits⟩, fun j hj => ?_⟩
  · exact ⟨hbits, fun j => by simp⟩
  · intro i hi bits ⟨hbits, hbit⟩
    rw [get_index hlt hg.bits hi]
    change Ensures ok (if g.bits.bit i = true then bits.put (UInt64.ofNat i) true else .ok bits) _
    cases hgi : g.bits.bit i with
    | true =>
        refine (put_index hlt hbits hi).mono fun bits' ⟨hbits', hbit'⟩ => ⟨hbits', fun j => ?_⟩
        rw [hbit' j, hbit j]
        by_cases h : j = i
        · simp [h, hgi]
        · rw [if_neg h, below_succ h]
    | false =>
        refine ⟨hbits, fun j => ?_⟩
        rw [hbit j]
        by_cases h : j = i
        · simp [h, hgi]
        · rw [below_succ h]
  · exact (hbit j).trans (by rw [decide_eq_true hj, Bool.true_and])

theorem copy_ok (hm : m ≠ 0) (hlt : m.toNat < 2 ^ 63) (halloc : alloc (Bitmap.wordCount m) = true) (hf : Of m k f) :
    Ensures ok (f.copy alloc) fun f' => Of m k f' ∧ ∀ j < m.toNat, f'.bits.bit j = f.bits.bit j := by
  obtain ⟨rfl, rfl, hbits⟩ := hf
  have hpos : 0 < f.m.toNat := Nat.pos_of_ne_zero fun h => hm (UInt64.toNat_inj.mp h)
  exact (Bitmap.copy_ok ok hlt hpos hbits (by rwa [UInt64.ofNat_toNat])).bind
    fun bits ⟨hbits, hbit⟩ => ⟨⟨rfl, rfl, hbits⟩, hbit⟩

theorem unite_ok (hm : m ≠ 0) (hlt : m.toNat < 2 ^ 63) (halloc : alloc (Bitmap.wordCount m) = true) (hf : Of m k f)
    (hg : Of m k g) : Ensures ok (f.unite alloc g) fun f' =>
      Of m k f' ∧ ∀ j < m.toNat, f'.bits.bit j = (f.bits.bit j || g.bits.bit j) :=
  (copy_ok hm hlt halloc hf).bind fun _ ⟨hcopy, hbit⟩ => (merge_ok hlt hcopy hg).mono
    fun _ ⟨hf', hbit'⟩ => ⟨hf', fun j hj => by rw [hbit' j hj, hbit j hj]⟩

/-- The result has memory, since the filters themselves have. -/
theorem intersect_ok {f₀ : BloomFilter} (hlt : m.toNat < 2 ^ 63) (hnew : new alloc m k = .ok f₀) (hf₀ : Of m k f₀)
    (hf : Of m k f) (hg : Of m k g) : Ensures ok (f.intersect alloc g) fun f' =>
      Of m k f' ∧ ∀ j < m.toNat, f'.bits.bit j = (f.bits.bit j && g.bits.bit j) := by
  obtain ⟨rfl, rfl, hbits⟩ := hf
  unfold intersect
  rw [if_neg (by rw [hg.bitSize, hg.hashCount]; simp), hnew]
  refine (Ensures.forLoop (P := fun i bits => bits.Sized f.m.toNat ∧
    ∀ j < i, bits.bit j = (f.bits.bit j && g.bits.bit j)) ?_ ?_).bind
    fun bits ⟨hbits, hbit⟩ => ⟨⟨hf₀.bitSize, hf₀.hashCount, hbits⟩, hbit⟩
  · exact ⟨hf₀.bits, fun j hj => absurd hj (Nat.not_lt_zero j)⟩
  · intro i hi bits ⟨hbits', hbit⟩
    rw [get_index hlt hbits hi, get_index hlt hg.bits hi]
    have hput : Ensures ok (bits.put (UInt64.ofNat i) (f.bits.bit i && g.bits.bit i)) fun bits' =>
        bits'.Sized f.m.toNat ∧ ∀ j < i + 1, bits'.bit j = (f.bits.bit j && g.bits.bit j) := by
      refine (put_index hlt hbits' hi).mono fun bits'' ⟨hbits'', hbit''⟩ => ⟨hbits'', fun j hj => ?_⟩
      rw [hbit'' j]
      by_cases h : j = i
      · rw [if_pos h, h]
      · rw [if_neg h, hbit j (by omega)]
    cases hfi : f.bits.bit i with
    | true =>
        rw [hfi] at hput
        exact hput
    | false =>
        rw [hfi] at hput
        exact hput

/-! ### Bytes -/

theorem toBytes_ok (hlt : m.toNat < 2 ^ 63) (hf : Of m k f) : Ensures ok f.toBytes fun bytes =>
    bytes.length = (m.toNat + 7) / 8 ∧ ∀ j < m.toNat, bitAt bytes j = f.bits.bit j := by
  obtain ⟨rfl, rfl, hbits⟩ := hf
  have hsize : ((f.m + 7) / 8).toNat = (f.m.toNat + 7) / 8 := by
    have hmod : (f.m.toNat + 7) % 2 ^ 64 = f.m.toNat + 7 := Nat.mod_eq_of_lt (by omega)
    rw [UInt64.toNat_div, UInt64.toNat_add]
    exact congrArg (· / 8) hmod
  refine (Ensures.forLoop (P := fun i bytes => bytes.length = (f.m.toNat + 7) / 8 ∧
    ∀ j, bitAt bytes j = (decide (j < i) && f.bits.bit j)) ?_ ?_).mono
    fun bytes ⟨hlen, hbit⟩ => ⟨hlen, fun j hj => by rw [hbit j, decide_eq_true hj, Bool.true_and]⟩
  · exact ⟨by rw [List.length_replicate, hsize], fun j => by simp [bitAt_replicate_zero]⟩
  · intro i hi bytes ⟨hlen, hbit⟩
    rw [get_index hlt hbits hi]
    change Ensures ok (if f.bits.bit i = true then setByteBit bytes i else .ok bytes) _
    cases hfi : f.bits.bit i with
    | true =>
        have hx := List.getElem?_eq_getElem (show i / 8 < bytes.length by omega)
        rw [if_pos rfl, setByteBit, hx]
        refine ⟨by rw [List.length_set]; exact hlen, fun j => ?_⟩
        rw [or_one_shiftLeft (Nat.mod_lt _ (by decide)), bitAt_set (by decide) hx, hbit j]
        by_cases h : j = i
        · simp [h, hfi]
        · rw [if_neg h, below_succ h]
    | false =>
        refine ⟨hlen, fun j => ?_⟩
        rw [hbit j]
        by_cases h : j = i
        · simp [h, hfi]
        · rw [below_succ h]

theorem byteBit_ok {bytes : List (BitVec 8)} (h : i / 8 < bytes.length) : byteBit bytes i = .ok (bitAt bytes i) := by
  have hx := List.getElem?_eq_getElem h
  rw [byteBit, hx]
  dsimp only
  rw [shiftRight_and_one (by decide), bitAt_eq hx]

theorem fromBytes_ok {bytes : List (BitVec 8)} (hlt : m.toNat < 2 ^ 63) (hf : Of m k f)
    (hlen : bytes.length = (m.toNat + 7) / 8) : Ensures ok (f.fromBytes bytes) fun f' =>
      Of m k f' ∧ ∀ j < m.toNat, f'.bits.bit j = bitAt bytes j := by
  obtain ⟨rfl, rfl, hbits⟩ := hf
  have henough : ¬ UInt64.ofNat bytes.length * 8 < f.m := by
    rw [UInt64.lt_iff_toNat_lt, UInt64.toNat_mul]
    have h : (UInt64.ofNat bytes.length).toNat = bytes.length := Nat.mod_eq_of_lt (by omega)
    change ¬ (UInt64.ofNat bytes.length).toNat * 8 % 2 ^ 64 < _
    rw [h, Nat.mod_eq_of_lt (by omega)]
    omega
  unfold fromBytes
  rw [if_neg henough]
  refine (Ensures.forLoop (P := fun i bits => bits.Sized f.m.toNat ∧ ∀ j < i, bits.bit j = bitAt bytes j) ?_ ?_).bind
    fun bits ⟨hbits, hbit⟩ => ⟨⟨rfl, rfl, hbits⟩, hbit⟩
  · exact ⟨hbits, fun j hj => absurd hj (Nat.not_lt_zero j)⟩
  · intro i hi bits ⟨hbits', hbit⟩
    rw [byteBit_ok (show i / 8 < bytes.length by omega)]
    refine (put_index hlt hbits' hi).mono fun bits'' ⟨hbits'', hbit''⟩ => ⟨hbits'', fun j hj => ?_⟩
    rw [hbit'' j]
    by_cases h : j = i
    · rw [if_pos h, h]
    · rw [if_neg h, hbit j (by omega)]

/-- Restoring from the bytes of a filter gives its bits. -/
theorem restore_ok (hlt : m.toNat < 2 ^ 63) (hf : Of m k f) (hg : Of m k g) :
    Ensures ok (f.toBytes >>= g.fromBytes) fun r => Of m k r ∧ ∀ j < m.toNat, r.bits.bit j = f.bits.bit j :=
  (toBytes_ok hlt hf).bind fun _ ⟨hlen, hbit⟩ => (fromBytes_ok hlt hg hlen).mono
    fun _ ⟨hr, hbit'⟩ => ⟨hr, fun j hj => by rw [hbit' j hj, hbit j hj]⟩

/-- A new filter has the words it needs, its allocator has memory, and no bit is set. -/
theorem new_spec (hlt : m.toNat < 2 ^ 63) (hnew : new alloc m k = .ok f) :
    Of m k f ∧ m ≠ 0 ∧ alloc (Bitmap.wordCount m) = true := by
  unfold new at hnew
  cases hb : Bitmap.new alloc m with
  | error e =>
      rw [hb] at hnew
      cases hnew
  | ok bits =>
      rw [hb] at hnew
      change (if m = 0 ∨ k = 0 then _ else _) = _ at hnew
      split at hnew
      · cases hnew
      · rename_i h0
        cases hnew
        have hm : m ≠ 0 := fun h => h0 (.inl h)
        obtain ⟨hbits, -, halloc⟩ := Bitmap.new_spec hlt hm hb
        exact ⟨⟨rfl, rfl, hbits⟩, hm, halloc⟩

/-! ### Programs -/

/-- Every filter has the words for its bits and holds the keys of its history. -/
def Inv (hash : T → UInt64) (m k : UInt64) (H : ℕ → Set T) (s : ℕ → BloomFilter) : Prop :=
  ∀ f, Of m k (s f) ∧ ∀ key ∈ H f, Holds hash m k (s f) key

/-- One filter changes, with its history. -/
theorem Inv.set (hs : Inv hash m k H s) {r : ℕ} {f' : BloomFilter} {S : Set T} (hf' : Of m k f')
    (hS : ∀ key ∈ S, Holds hash m k f' key) : Inv hash m k (set H r S) (set s r f') := by
  intro f
  unfold BloomFilter.set
  by_cases h : f = r
  · rw [if_pos h, if_pos h]
    exact ⟨hf', hS⟩
  · rw [if_neg h, if_neg h]
    exact hs f

/-- A key is held by a filter that has all bits of one that holds it. -/
theorem Holds.mono (hm : m ≠ 0) (h : Holds hash m k f key)
    (hbit : ∀ j < m.toNat, f.bits.bit j = true → g.bits.bit j = true) : Holds hash m k g key :=
  fun i hi => hbit _ (index_lt hm) (h i hi)

/-- What one call keeps. -/
theorem exec_inv {f₀ : BloomFilter} (hlt : m.toNat < 2 ^ 63) (hnew : new alloc m k = .ok f₀) (c : Call T)
    (hs : Inv hash m k H s) : Ensures ok (exec alloc hash s c) (Inv hash m k (history H c)) := by
  obtain ⟨hf₀, hm, halloc⟩ := new_spec hlt hnew
  cases c with
  | insert f key =>
      refine (insert_ok hm hlt (hs f).1).bind fun f' ⟨hf', hkeep, hkey⟩ => hs.set hf' fun key' hkey' => ?_
      rcases hkey' with hold | rfl
      · exact ((hs f).2 key' hold).mono hm fun j _ => hkeep j
      · exact hkey
  | merge f g =>
      refine (merge_ok hlt (hs f).1 (hs g).1).bind fun f' ⟨hf', hbit⟩ => hs.set hf' fun key hkey => ?_
      rcases hkey with hkey | hkey
      · exact ((hs f).2 key hkey).mono hm fun j hj h => by rw [hbit j hj, h, Bool.true_or]
      · exact ((hs g).2 key hkey).mono hm fun j hj h => by rw [hbit j hj, h, Bool.or_true]
  | unite r f g =>
      refine (unite_ok hm hlt halloc (hs f).1 (hs g).1).bind fun f' ⟨hf', hbit⟩ => hs.set hf' fun key hkey => ?_
      rcases hkey with hkey | hkey
      · exact ((hs f).2 key hkey).mono hm fun j hj h => by rw [hbit j hj, h, Bool.true_or]
      · exact ((hs g).2 key hkey).mono hm fun j hj h => by rw [hbit j hj, h, Bool.or_true]
  | intersect r f g =>
      refine (intersect_ok hlt hnew hf₀ (hs f).1 (hs g).1).bind
        fun f' ⟨hf', hbit⟩ => hs.set hf' fun key hkey i hi => ?_
      rw [hbit _ (index_lt hm), (hs f).2 key hkey.1 i hi, (hs g).2 key hkey.2 i hi]
      rfl
  | copy r f =>
      refine (copy_ok hm hlt halloc (hs f).1).bind fun f' ⟨hf', hbit⟩ => hs.set hf' fun key hkey => ?_
      exact ((hs f).2 key hkey).mono hm fun j hj h => by rw [hbit j hj, h]
  | clear f => exact (clear_ok (hs f).1).bind fun f' hf' => hs.set hf' fun key hkey => absurd hkey id
  | fromBytes g f =>
      refine (toBytes_ok hlt (hs f).1).bind fun bytes ⟨hlen, hbit⟩ => ?_
      refine (fromBytes_ok hlt (hs g).1 hlen).bind fun g' ⟨hg', hbit'⟩ => hs.set hg' fun key hkey => ?_
      exact ((hs f).2 key hkey).mono hm fun j hj h => by rw [hbit' j hj, hbit j hj, h]

/-- What a program keeps. -/
theorem run_inv {f₀ : BloomFilter} (hlt : m.toNat < 2 ^ 63) (hnew : new alloc m k = .ok f₀) (calls : List (Call T))
    (hs : Inv hash m k H s) :
    Ensures ok (calls.foldlM (exec alloc hash) s) (Inv hash m k (calls.foldl history H)) := by
  induction calls generalizing s H with
  | nil => exact hs
  | cons c calls ih =>
      rw [List.foldlM_cons, List.foldl_cons]
      exact (exec_inv hlt hnew c hs).bind fun s' hs' => ih hs'

/-- A computation that may not fail has a result. -/
theorem exists_ok {x : Except Failure α} {P : α → Prop} (h : Ensures (fun _ => False) x P) : ∃ a, x = .ok a ∧ P a :=
  h.cases.resolve_right fun ⟨_, _, he⟩ => he

theorem Inv.sound (hlt : m.toNat < 2 ^ 63) (hm : m ≠ 0) (hs : Inv hash m k H s) : Sound hash H s where
  contains f key hkey := contains_of_holds hm hlt (hs f).1 ((hs f).2 key hkey)
  restores f g := by
    obtain ⟨r, hr, hof, hbit⟩ := exists_ok (restore_ok hlt (hs f).1 (hs g).1)
    refine ⟨r, hr, fun key => ⟨_, contains_ok hm hlt hof, ?_⟩⟩
    rw [contains_ok hm hlt (hs f).1]
    refine congrArg Except.ok ?_
    rw [funext fun i => (hbit (index hash m key i) (index_lt hm)).symm]

/-- From `2 ^ 63` bits on `clear` runs off the words: the end of the bitmap is in front of its start. -/
theorem clear_not_ok (hge : 2 ^ 63 ≤ m.toNat) (hm : m ≠ 0) (hnew : new alloc m k = .ok f) (f' : BloomFilter) :
    f.clear ≠ .ok f' := by
  have hfinish : f.bits.finish < 0 := by
    unfold new Bitmap.new at hnew
    rw [if_neg hm] at hnew
    cases ha : Bitmap.allocate alloc (Bitmap.wordCount m) with
    | error e =>
        rw [ha] at hnew
        cases hnew
    | ok words =>
        rw [ha] at hnew
        change (if m = 0 ∨ k = 0 then _ else Except.ok _) = _ at hnew
        split at hnew
        · cases hnew
        · cases hnew
          exact Bitmap.difference_neg hge
  intro h
  unfold clear Bitmap.fill at h
  cases hfill : Bitmap.fillLoop false f.bits.finish (32 * f.bits.words.length + 32) 0 f.bits with
  | error e =>
      rw [hfill] at h
      cases h
  | ok bits => exact Bitmap.fillLoop_ne_ok _ hfinish _ _ hfill

/-- The constructor returns unless its block of words is refused. -/
theorem new_fails_iff (hm : m ≠ 0) (hk : k ≠ 0) :
    (∀ f, new alloc m k ≠ .ok f) ↔ Bitmap.wordCount m ≠ 0 ∧ alloc (Bitmap.wordCount m) = false := by
  unfold new Bitmap.new Bitmap.allocate
  rw [if_neg hm]
  by_cases h0 : Bitmap.wordCount m = 0
  · rw [if_pos h0]
    refine ⟨fun h => absurd ?_ (h ⟨m, k, ⟨[], Bitmap.difference m⟩⟩), fun h => absurd h0 h.1⟩
    change (if m = 0 ∨ k = 0 then _ else Except.ok _) = _
    rw [if_neg (not_or.mpr ⟨hm, hk⟩)]
  · rw [if_neg h0]
    cases ha : alloc (Bitmap.wordCount m) with
    | true =>
        refine ⟨fun h => absurd ?_ (h ⟨m, k, ⟨List.replicate (Bitmap.wordCount m).toNat 0#32, Bitmap.difference m⟩⟩),
          fun h => absurd h.2 (by decide)⟩
        change (if m = 0 ∨ k = 0 then _ else Except.ok _) = _
        rw [if_neg (not_or.mpr ⟨hm, hk⟩)]
    | false => exact ⟨fun _ => ⟨h0, rfl⟩, fun _ _ => nofun⟩

end NeForce.BloomFilter
