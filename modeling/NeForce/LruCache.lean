import Mathlib.Data.Finmap
import NeForce.Runs

/-! # The LRU cache

`lru_cache` keeps its elements in a list, the most recently used one first, and two tables: `map` from the keys to the
nodes of the list, and `accessTimes` from the keys to the times of their last use.  An iterator of the list is the address
of a node; using one that is not in the list gives `none`.

The list and `map` always belong together (`Indexes`), the list is in the order of the last uses (`RecentFirst`), and
the element that makes room is the last one.  `erase`, `remove_if` and `clear` forget `accessTimes`: in the runs in which they
remove nothing, the three have the same keys (`run_consistent`). -/

namespace NeForce.Lru

/-! ### The list -/

/-- A node of the list. -/
structure Node (K V : Type) where
  addr : ℕ
  key : K
  value : V

section

variable {K V : Type}

def nodeAt (l : List (Node K V)) (p : ℕ) : Option (Node K V) := l.find? (·.addr = p)

/-- `list_.splice(list_.begin(), list_, p)` -/
def splice (l : List (Node K V)) (p : ℕ) : Option (List (Node K V)) :=
  (nodeAt l p).map fun n => n :: l.filter (·.addr ≠ p)

/-- `list_.erase(p)` -/
def eraseNode (l : List (Node K V)) (p : ℕ) : Option (List (Node K V)) :=
  (nodeAt l p).map fun _ => l.filter (·.addr ≠ p)

/-- `p->second = value` -/
def assign (l : List (Node K V)) (p : ℕ) (value : V) : Option (List (Node K V)) :=
  (nodeAt l p).map fun _ => l.map fun n => if n.addr = p then { n with value } else n

end

/-! ### The cache -/

structure LruCache (K V : Type) where
  capacity : ℕ
  list : List (Node K V)
  map : Finmap fun _ : K => ℕ
  accessTimes : Finmap fun _ : K => ℤ

variable {K V : Type} [DecidableEq K]

namespace LruCache

/-- The constructor; a capacity of `0` is refused. -/
def make (capacity : ℕ) : Option (LruCache K V) :=
  if capacity = 0 then none else some ⟨capacity, [], ∅, ∅⟩

/-- Make room for an element. -/
def evict (c : LruCache K V) : Option (LruCache K V) :=
  if c.capacity ≤ c.list.length then do
    let last ← c.list.getLast?
    pure { c with
      map := c.map.erase last.key
      accessTimes := c.accessTimes.erase last.key
      list := c.list.dropLast }
  else some c

/-- `put`; a new element goes to a node at the address `node`. -/
def put (c : LruCache K V) (node : ℕ) (key : K) (value : V) (now : ℤ) : Option (LruCache K V) :=
  match c.map.lookup key with
  | some p => do
      let l ← assign c.list p value
      let l ← splice l p
      pure { c with list := l, accessTimes := c.accessTimes.insert key now }
  | none => do
      let c ← c.evict
      pure { c with
        list := ⟨node, key, value⟩ :: c.list
        map := c.map.insert key node
        accessTimes := c.accessTimes.insert key now }

def get (c : LruCache K V) (key : K) (now : ℤ) : Option (LruCache K V × Option V) :=
  match c.map.lookup key with
  | none => some (c, none)
  | some p => do
      let l ← splice c.list p
      let n ← nodeAt l p
      pure ({ c with list := l, accessTimes := c.accessTimes.insert key now }, some n.value)

def erase (c : LruCache K V) (key : K) : Option (LruCache K V × Bool) :=
  match c.map.lookup key with
  | none => some (c, false)
  | some p => do
      let l ← eraseNode c.list p
      pure ({ c with list := l, map := c.map.erase key }, true)

/-- `remove_expired`; the entries of `access_times_` are visited in the order of `keys`. -/
def removeExpired (c : LruCache K V) (now maxAge : ℤ) : List K → Option (LruCache K V)
  | [] => some c
  | key :: keys => do
      let time ← c.accessTimes.lookup key
      if maxAge < now - time then
        let (c, _) ← c.erase key
        removeExpired { c with accessTimes := c.accessTimes.erase key } now maxAge keys
      else removeExpired c now maxAge keys

def clear (c : LruCache K V) : LruCache K V := { c with list := [], map := ∅ }

/-- The loop of `remove_if`: the nodes that stay, and the table. -/
def removeIfLoop (pred : K × V → Bool) : List (Node K V) → (Finmap fun _ : K => ℕ) → List (Node K V) × (Finmap fun _ : K => ℕ)
  | [], m => ([], m)
  | n :: l, m =>
      if pred (n.key, n.value) then removeIfLoop pred l (m.erase n.key)
      else
        let r := removeIfLoop pred l m
        (n :: r.1, r.2)

def removeIf (c : LruCache K V) (pred : K × V → Bool) : LruCache K V :=
  let r := removeIfLoop pred c.list c.map
  { c with list := r.1, map := r.2 }

/-- The keys of the list, in order. -/
def keys (c : LruCache K V) : List K := c.list.map Node.key

end LruCache

/-! ### Operations -/

inductive Op (K V : Type) where
  | put (node : ℕ) (key : K) (value : V) (now : ℤ)
  | get (key : K) (now : ℤ)
  | erase (key : K)
  | removeIf (pred : K × V → Bool)
  | removeExpired (order : List K) (now maxAge : ℤ)
  | clear

namespace Op

def exec (c : LruCache K V) : Op K V → Option (LruCache K V)
  | put node key value now => c.put node key value now
  | get key now => (c.get key now).map (·.1)
  | erase key => (c.erase key).map (·.1)
  | removeIf pred => some (c.removeIf pred)
  | removeExpired order now maxAge => c.removeExpired now maxAge order
  | clear => some c.clear

/-- A new node is not one of the list, and an iteration visits every entry of a table once. -/
def Valid (c : LruCache K V) : Op K V → Prop
  | put node key _ _ => key ∉ c.map → ∀ r ∈ c.evict, ∀ n ∈ r.list, n.addr ≠ node
  | removeExpired order _ _ => order.Nodup ∧ order.toFinset = c.accessTimes.keys
  | _ => True

/-- The key that is put or got. -/
def used : Op K V → Option K
  | put _ key _ _ | get key _ => some key
  | _ => none

/-- `erase`, `remove_if` and `clear` remove nothing. -/
def KeepsTimes (c : LruCache K V) : Op K V → Prop
  | erase key => key ∉ c.map
  | removeIf pred => ∀ n ∈ c.list, pred (n.key, n.value) = false
  | clear => c.list = []
  | _ => True

end Op

instance (c : LruCache K V) (op : Op K V) : Decidable (op.Valid c) := by
  cases op <;> (unfold Op.Valid; infer_instance)

instance (c : LruCache K V) (op : Op K V) : Decidable (op.KeepsTimes c) := by
  cases op <;> unfold Op.KeepsTimes
  case clear => exact decidable_of_iff (c.list.isEmpty = true) List.isEmpty_iff
  all_goals infer_instance

/-- One operation. -/
def LruStep (c : LruCache K V) (op : Op K V) (c' : LruCache K V) : Prop := op.Valid c ∧ op.exec c = some c'

/-- The keys put or got in a run, the last one first. -/
def used (ops : List (Op K V)) : List K := (ops.filterMap Op.used).reverse

/-! ### The list and its table -/

/-- `m` leads from the keys of `l` to its nodes. -/
structure Indexes (m : Finmap fun _ : K => ℕ) (l : List (Node K V)) : Prop where
  addrs : (l.map Node.addr).Nodup
  keys : (l.map Node.key).Nodup
  lookup : ∀ k p, m.lookup k = some p ↔ ∃ n ∈ l, n.addr = p ∧ n.key = k

namespace Indexes

variable {m : Finmap fun _ : K => ℕ} {l l' l₁ l₂ : List (Node K V)} {n : Node K V} {k : K} {p : ℕ}

theorem nil : Indexes (∅ : Finmap fun _ : K => ℕ) ([] : List (Node K V)) :=
  ⟨List.nodup_nil, List.nodup_nil, fun k p => by simp [Finmap.lookup_empty]⟩

theorem mem_iff (h : Indexes m l) : k ∈ m ↔ k ∈ l.map Node.key := by
  rw [Finmap.mem_iff, List.mem_map]
  constructor
  · rintro ⟨p, hp⟩
    obtain ⟨n, hn, _, hk⟩ := (h.lookup k p).mp hp
    exact ⟨n, hn, hk⟩
  · rintro ⟨n, hn, hk⟩
    exact ⟨n.addr, (h.lookup k n.addr).mpr ⟨n, hn, rfl, hk⟩⟩

theorem perm (h : Indexes m l) (hp : l.Perm l') : Indexes m l' := by
  refine ⟨(hp.map _).nodup_iff.mp h.addrs, (hp.map _).nodup_iff.mp h.keys, fun k p => ?_⟩
  rw [h.lookup]
  simp only [hp.mem_iff]

theorem cons (h : Indexes m l) (ha : n.addr ∉ l.map Node.addr) (hk : n.key ∉ l.map Node.key) :
    Indexes (m.insert n.key n.addr) (n :: l) := by
  refine ⟨List.nodup_cons.mpr ⟨ha, h.addrs⟩, List.nodup_cons.mpr ⟨hk, h.keys⟩, fun k p => ?_⟩
  by_cases e : k = n.key
  · subst e
    rw [Finmap.lookup_insert, Option.some.injEq]
    constructor
    · intro hp
      exact ⟨n, by simp, hp, rfl⟩
    · rintro ⟨n', hn', hp, hkey⟩
      rcases List.mem_cons.mp hn' with rfl | hn'
      · exact hp
      · exact absurd (List.mem_map.mpr ⟨n', hn', hkey⟩) hk
  · rw [Finmap.lookup_insert_of_ne _ e, h.lookup]
    constructor
    · rintro ⟨n', hn', hp, hkey⟩
      exact ⟨n', List.mem_cons_of_mem _ hn', hp, hkey⟩
    · rintro ⟨n', hn', hp, hkey⟩
      rcases List.mem_cons.mp hn' with rfl | hn'
      · exact absurd hkey.symm e
      · exact ⟨n', hn', hp, hkey⟩

theorem remove (h : Indexes m (l₁ ++ n :: l₂)) : Indexes (m.erase n.key) (l₁ ++ l₂) := by
  have hp : (l₁ ++ n :: l₂).Perm (n :: (l₁ ++ l₂)) := List.perm_middle
  have h' := h.perm hp
  have hkeys := List.nodup_cons.mp h'.keys
  refine ⟨(List.nodup_cons.mp h'.addrs).2, hkeys.2, fun k p => ?_⟩
  by_cases e : k = n.key
  · subst e
    rw [Finmap.lookup_erase]
    constructor
    · intro hf
      cases hf
    · rintro ⟨n', hn', _, hkey⟩
      exact absurd (List.mem_map.mpr ⟨n', hn', hkey⟩) hkeys.1
  · rw [Finmap.lookup_erase_ne e, h'.lookup]
    constructor
    · rintro ⟨n', hn', hp, hkey⟩
      rcases List.mem_cons.mp hn' with rfl | hn'
      · exact absurd hkey.symm e
      · exact ⟨n', hn', hp, hkey⟩
    · rintro ⟨n', hn', hp, hkey⟩
      exact ⟨n', List.mem_cons_of_mem _ hn', hp, hkey⟩

/-- The other nodes are at other addresses. -/
theorem addr_ne (h : Indexes m (l₁ ++ n :: l₂)) : ∀ n' ∈ l₁ ++ l₂, n'.addr ≠ n.addr := by
  have hp : (l₁ ++ n :: l₂).Perm (n :: (l₁ ++ l₂)) := List.perm_middle
  have hn := (List.nodup_cons.mp (h.perm hp).addrs).1
  intro n' hn' e
  exact hn (List.mem_map.mpr ⟨n', hn', e⟩)

theorem nodeAt_eq (h : Indexes m (l₁ ++ n :: l₂)) : nodeAt (l₁ ++ n :: l₂) n.addr = some n := by
  have hne := h.addr_ne
  unfold nodeAt
  rw [List.find?_append, List.find?_eq_none.mpr fun n' hn' => by simpa using hne n' (by simp [hn']), Option.none_or,
    List.find?_cons_of_pos (by simp)]

theorem filter_eq (h : Indexes m (l₁ ++ n :: l₂)) : (l₁ ++ n :: l₂).filter (·.addr ≠ n.addr) = l₁ ++ l₂ := by
  have hne := h.addr_ne
  rw [List.filter_append, List.filter_cons_of_neg (by simp), ← List.filter_append]
  exact List.filter_eq_self.mpr fun n' hn' => by simpa using hne n' hn'

theorem splice_eq (h : Indexes m (l₁ ++ n :: l₂)) : splice (l₁ ++ n :: l₂) n.addr = some (n :: (l₁ ++ l₂)) := by
  rw [splice, h.nodeAt_eq, Option.map_some, h.filter_eq]

theorem eraseNode_eq (h : Indexes m (l₁ ++ n :: l₂)) : eraseNode (l₁ ++ n :: l₂) n.addr = some (l₁ ++ l₂) := by
  rw [eraseNode, h.nodeAt_eq, Option.map_some, h.filter_eq]

/-- A node with another value. -/
theorem assign_eq (h : Indexes m (l₁ ++ n :: l₂)) (v : V) :
    assign (l₁ ++ n :: l₂) n.addr v = some (l₁ ++ { n with value := v } :: l₂) := by
  have hne := h.addr_ne
  have hsame : ∀ l : List (Node K V), (∀ n' ∈ l, n' ∈ l₁ ++ l₂) →
      l.map (fun n' => if n'.addr = n.addr then { n' with value := v } else n') = l := by
    intro l hl
    refine (List.map_congr_left fun n' hn' => ?_).trans (List.map_id l)
    exact if_neg (hne n' (hl n' hn'))
  rw [assign, h.nodeAt_eq, Option.map_some, List.map_append, List.map_cons, if_pos rfl,
    hsame l₁ fun n' hn' => by simp [hn'], hsame l₂ fun n' hn' => by simp [hn']]

theorem setValue (h : Indexes m (l₁ ++ n :: l₂)) (v : V) : Indexes m (l₁ ++ { n with value := v } :: l₂) := by
  have haddrs := h.addrs
  have hkeys := h.keys
  refine ⟨by simpa using haddrs, by simpa using hkeys, fun k p => ?_⟩
  rw [h.lookup]
  simp only [List.mem_append, List.mem_cons, or_and_right, exists_or, exists_eq_left]

/-- Where a key leads to. -/
theorem split (h : Indexes m l) (hp : m.lookup k = some p) : ∃ l₁ n l₂, l = l₁ ++ n :: l₂ ∧ n.addr = p ∧ n.key = k := by
  obtain ⟨n, hn, ha, hk⟩ := (h.lookup k p).mp hp
  obtain ⟨l₁, l₂, rfl⟩ := List.append_of_mem hn
  exact ⟨l₁, n, l₂, rfl, ha, hk⟩

end Indexes

/-! ### The order of the last uses -/

/-- The keys `ks` are in the order in which they come first in `uses`. -/
def RecentFirst (uses ks : List K) : Prop :=
  (∀ k ∈ ks, k ∈ uses) ∧ ks.Pairwise fun a b => uses.idxOf a < uses.idxOf b

namespace RecentFirst

variable {uses ks ks' : List K} {k : K}

theorem nil : RecentFirst uses [] := ⟨by simp, .nil⟩

theorem sublist (h : RecentFirst uses ks) (hs : ks'.Sublist ks) : RecentFirst uses ks' :=
  ⟨fun k hk => h.1 k (hs.subset hk), h.2.sublist hs⟩

/-- The use of a key that is not among `ks`. -/
theorem skip (h : RecentFirst uses ks) (hk : k ∉ ks) : RecentFirst (k :: uses) ks := by
  have hne : ∀ a ∈ ks, k ≠ a := by
    rintro a ha rfl
    exact hk ha
  constructor
  · intro a ha
    exact List.mem_cons_of_mem _ (h.1 a ha)
  · refine h.2.imp_of_mem fun ha hb hlt => ?_
    rw [List.idxOf_cons_ne _ (hne _ ha), List.idxOf_cons_ne _ (hne _ hb)]
    omega

theorem cons (h : RecentFirst uses ks) (hk : k ∉ ks) : RecentFirst (k :: uses) (k :: ks) := by
  obtain ⟨hmem, hlt⟩ := h.skip hk
  constructor
  · intro a ha
    rcases List.mem_cons.mp ha with rfl | ha
    · exact List.mem_cons_self
    · exact hmem a ha
  · refine List.pairwise_cons.mpr ⟨fun a ha => ?_, hlt⟩
    have hne : k ≠ a := by
      rintro rfl
      exact hk ha
    rw [List.idxOf_cons_self, List.idxOf_cons_ne _ hne]
    omega

/-- A key comes to the front. -/
theorem front {ks₁ ks₂ : List K} (h : RecentFirst uses (ks₁ ++ k :: ks₂)) (hn : (ks₁ ++ k :: ks₂).Nodup) :
    RecentFirst (k :: uses) (k :: (ks₁ ++ ks₂)) := by
  rw [List.nodup_middle, List.nodup_cons] at hn
  refine (h.sublist ?_).cons hn.1
  exact (List.Sublist.refl ks₁).append (List.sublist_cons_self k ks₂)

end RecentFirst

/-! ### What an operation does -/

namespace LruCache

/-- What holds of a cache after any operations. -/
structure Coherent (c : LruCache K V) : Prop where
  indexes : Indexes c.map c.list
  size_le : c.list.length ≤ c.capacity
  positive : 0 < c.capacity

/-- `accessTimes` has the keys of the list. -/
def TimesExact (c : LruCache K V) : Prop := ∀ k, k ∈ c.accessTimes ↔ k ∈ c.keys

end LruCache

/-- What an operation keeps. -/
structure Outcome (c : LruCache K V) (op : Op K V) (c' : LruCache K V) : Prop where
  capacity : c'.capacity = c.capacity
  coherent : c'.Coherent
  recent : ∀ uses, RecentFirst uses c.keys → RecentFirst (op.used.toList ++ uses) c'.keys
  times : op.KeepsTimes c → c.TimesExact → c'.TimesExact

namespace LruCache

variable {c r : LruCache K V} {node p : ℕ} {key : K} {value : V} {now maxAge : ℤ}

/-- The cache without its last element, if it is full. -/
theorem Coherent.evict_spec (h : c.Coherent) : ∃ r, c.evict = some r ∧
    ((c.list.length < c.capacity ∧ r = c) ∨ ∃ l last, c.list = l ++ [last] ∧ c.list.length = c.capacity ∧
      r = { c with list := l, map := c.map.erase last.key, accessTimes := c.accessTimes.erase last.key }) := by
  have hle := h.size_le
  have hpos := h.positive
  unfold evict
  by_cases hfull : c.capacity ≤ c.list.length
  · rw [if_pos hfull]
    have hne : c.list ≠ [] := List.ne_nil_of_length_pos (by omega)
    have hsplit : c.list = c.list.dropLast ++ [c.list.getLast hne] := (List.dropLast_append_getLast hne).symm
    rw [List.getLast?_eq_some_getLast hne]
    exact ⟨_, rfl, Or.inr ⟨_, _, hsplit, by omega, rfl⟩⟩
  · rw [if_neg hfull]
    exact ⟨c, rfl, Or.inl ⟨by omega, rfl⟩⟩

theorem Coherent.evict_coherent (h : c.Coherent) (he : c.evict = some r) : r.capacity = c.capacity ∧
    Indexes r.map r.list ∧ r.list.length < r.capacity ∧ r.keys.Sublist c.keys ∧ (c.TimesExact → r.TimesExact) := by
  obtain ⟨r', he', hr⟩ := h.evict_spec
  obtain rfl := Option.some.inj (he.symm.trans he')
  have hpos := h.positive
  rcases hr with ⟨hlt, rfl⟩ | ⟨l, last, hl, hlen, rfl⟩
  · exact ⟨rfl, h.indexes, hlt, List.Sublist.refl _, id⟩
  · have hindexes := h.indexes
    rw [hl] at hindexes
    have hrest := hindexes.remove
    rw [List.append_nil] at hrest
    have hkeys := hindexes.keys
    rw [hl, List.length_append, List.length_singleton] at hlen
    refine ⟨rfl, hrest, by simp only; omega, ?_, fun ht k => ?_⟩
    · unfold keys
      rw [hl, List.map_append]
      exact List.sublist_append_left _ _
    · have htk := ht k
      unfold keys at htk ⊢
      rw [List.map_append, List.nodup_append] at hkeys
      rw [hl, List.map_append, List.mem_append] at htk
      rw [Finmap.mem_erase, htk]
      constructor
      · rintro ⟨hne, hk | hk⟩
        · exact hk
        · exact absurd (List.mem_singleton.mp hk) hne
      · intro hk
        exact ⟨hkeys.2.2 k hk last.key (by simp), Or.inl hk⟩

/-- An element that is used comes to the front. -/
theorem Coherent.front {op : Op K V} {l₁ l₂ : List (Node K V)} {n : Node K V} (h : c.Coherent)
    (hl : c.list = l₁ ++ n :: l₂) (value : V) (now : ℤ) (hop : op.used = some n.key) :
    Outcome c op { c with
      list := { n with value } :: (l₁ ++ l₂), accessTimes := c.accessTimes.insert n.key now } := by
  have hindexes := h.indexes
  rw [hl] at hindexes
  have hkeys : c.keys = l₁.map Node.key ++ n.key :: l₂.map Node.key := by
    unfold keys
    rw [hl, List.map_append, List.map_cons]
  have hkeys' : keys { c with
      list := { n with value } :: (l₁ ++ l₂), accessTimes := c.accessTimes.insert n.key now } =
      n.key :: (l₁.map Node.key ++ l₂.map Node.key) := by
    unfold keys
    rw [List.map_cons, List.map_append]
  refine ⟨rfl, ⟨?_, ?_, h.positive⟩, fun uses hr => ?_, fun _ ht k => ?_⟩
  · exact (hindexes.setValue value).perm List.perm_middle
  · have hlen := h.size_le
    rw [hl, List.length_append, List.length_cons] at hlen
    simp only [List.length_cons, List.length_append]
    omega
  · rw [hop, hkeys']
    rw [hkeys] at hr
    refine hr.front ?_
    have hn := hindexes.keys
    rwa [List.map_append, List.map_cons] at hn
  · have htk := ht k
    rw [hkeys, List.mem_append, List.mem_cons] at htk
    rw [hkeys', Finmap.mem_insert, List.mem_cons, List.mem_append, htk]
    tauto

theorem Coherent.put_spec (h : c.Coherent) (hv : (Op.put node key value now).Valid c) :
    ∃ c', c.put node key value now = some c' ∧ Outcome c (.put node key value now) c' := by
  unfold put
  cases hm : c.map.lookup key with
  | some p =>
      obtain ⟨l₁, n, l₂, hl, rfl, rfl⟩ := h.indexes.split hm
      have hindexes := h.indexes
      rw [hl] at hindexes
      refine ⟨_, ?_, h.front hl value now rfl⟩
      simp only [hl, hindexes.assign_eq value, Option.bind_eq_bind, Option.bind_some]
      rw [(hindexes.setValue value).splice_eq]
      rfl
  | none =>
      obtain ⟨r, he, _⟩ := h.evict_spec
      obtain ⟨hcap, hindexes, hlt, hsub, htimes⟩ := h.evict_coherent he
      have hnot : key ∉ c.map := Finmap.lookup_eq_none.mp hm
      have hnew : key ∉ c.keys := fun hk => hnot (h.indexes.mem_iff.mpr hk)
      have hnew' : key ∉ r.keys := fun hk => hnew (hsub.subset hk)
      have haddr : node ∉ r.list.map Node.addr := by
        intro hn
        obtain ⟨n, hn, ha⟩ := List.mem_map.mp hn
        exact hv hnot r he n hn ha
      refine ⟨{ r with
        list := ⟨node, key, value⟩ :: r.list
        map := r.map.insert key node
        accessTimes := r.accessTimes.insert key now }, ?_, hcap, ⟨?_, hlt, ?_⟩, fun uses hr => ?_, fun _ ht k => ?_⟩
      · simp only [he, Option.bind_eq_bind, Option.bind_some]
        rfl
      · exact hindexes.cons (n := ⟨node, key, value⟩) haddr hnew'
      · have hpos := h.positive
        rwa [← hcap] at hpos
      · exact (hr.sublist hsub).cons hnew'
      · show k ∈ r.accessTimes.insert key now ↔ k ∈ key :: r.keys
        rw [Finmap.mem_insert, List.mem_cons, htimes ht k]

theorem Coherent.get_spec (h : c.Coherent) (key : K) (now : ℤ) :
    ∃ c' v, c.get key now = some (c', v) ∧ Outcome c (.get key now) c' := by
  unfold get
  cases hm : c.map.lookup key with
  | none =>
      have hnot : key ∉ c.keys := fun hk => Finmap.lookup_eq_none.mp hm (h.indexes.mem_iff.mpr hk)
      exact ⟨c, none, rfl, rfl, h, fun uses hr => hr.skip hnot, fun _ ht => ht⟩
  | some p =>
      obtain ⟨l₁, n, l₂, hl, rfl, rfl⟩ := h.indexes.split hm
      have hindexes := h.indexes
      rw [hl] at hindexes
      have hfront : Indexes c.map ([] ++ n :: (l₁ ++ l₂)) := hindexes.perm List.perm_middle
      have hnode := hfront.nodeAt_eq
      rw [List.nil_append] at hnode
      refine ⟨_, some n.value, ?_, h.front hl n.value now rfl⟩
      simp only [hl, hindexes.splice_eq, Option.bind_eq_bind, Option.bind_some, hnode]
      rfl

theorem Coherent.erase_spec (h : c.Coherent) (key : K) :
    ∃ c' b, c.erase key = some (c', b) ∧ c'.capacity = c.capacity ∧ c'.accessTimes = c.accessTimes ∧ c'.Coherent ∧
      c'.keys.Sublist c.keys ∧ (∀ k, k ∈ c'.keys ↔ k ≠ key ∧ k ∈ c.keys) ∧ (key ∉ c.map → c' = c) := by
  unfold erase
  cases hm : c.map.lookup key with
  | none =>
      have hnot : key ∉ c.keys := fun hk => Finmap.lookup_eq_none.mp hm (h.indexes.mem_iff.mpr hk)
      refine ⟨c, false, rfl, rfl, rfl, h, List.Sublist.refl _, fun k => ?_, fun _ => rfl⟩
      constructor
      · rintro hk
        exact ⟨fun e => hnot (e ▸ hk), hk⟩
      · exact fun hk => hk.2
  | some p =>
      obtain ⟨l₁, n, l₂, hl, rfl, rfl⟩ := h.indexes.split hm
      have hindexes := h.indexes
      rw [hl] at hindexes
      have hkeys : c.keys = l₁.map Node.key ++ n.key :: l₂.map Node.key := by
        unfold keys
        rw [hl, List.map_append, List.map_cons]
      have hn := hindexes.keys
      rw [List.map_append, List.map_cons, List.nodup_middle, List.nodup_cons] at hn
      refine ⟨{ c with list := l₁ ++ l₂, map := c.map.erase n.key }, true, ?_, rfl, rfl, ⟨hindexes.remove, ?_, h.positive⟩,
        ?_, fun k => ?_, fun hnot => ?_⟩
      · simp only [hl, hindexes.eraseNode_eq, Option.bind_eq_bind, Option.bind_some]
        rfl
      · have hlen := h.size_le
        rw [hl, List.length_append, List.length_cons] at hlen
        simp only [List.length_append]
        omega
      · rw [hkeys]
        unfold keys
        rw [List.map_append]
        exact (List.Sublist.refl _).append (List.sublist_cons_self _ _)
      · rw [hkeys]
        unfold keys
        rw [List.map_append, List.mem_append, List.mem_append, List.mem_cons]
        rw [List.mem_append] at hn
        constructor
        · intro hk
          exact ⟨fun e => hn.1 (e ▸ hk), by tauto⟩
        · rintro ⟨hne, hk⟩
          tauto
      · exact absurd (Finmap.mem_of_lookup_eq_some hm) hnot

/-- The loop of `remove_if` over the nodes `l`, when the nodes `l₀` stay. -/
theorem removeIfLoop_spec (pred : K × V → Bool) {l₀ l : List (Node K V)} {m : Finmap fun _ : K => ℕ}
    (h : Indexes m (l₀ ++ l)) :
    Indexes (removeIfLoop pred l m).2 (l₀ ++ (removeIfLoop pred l m).1) ∧ (removeIfLoop pred l m).1.Sublist l ∧
      ((∀ n ∈ l, pred (n.key, n.value) = false) → removeIfLoop pred l m = (l, m)) := by
  induction l generalizing l₀ m with
  | nil => exact ⟨h, List.Sublist.refl _, fun _ => rfl⟩
  | cons n l ih =>
      rw [removeIfLoop]
      split
      · rename_i hp
        obtain ⟨h1, h2, _⟩ := ih h.remove
        refine ⟨h1, h2.cons _, fun hall => ?_⟩
        rw [hall n (by simp)] at hp
        cases hp
      · have h' : Indexes m ((l₀ ++ [n]) ++ l) := by rwa [List.append_assoc, List.singleton_append]
        obtain ⟨h1, h2, h3⟩ := ih h'
        rw [List.append_assoc, List.singleton_append] at h1
        refine ⟨h1, h2.cons_cons _, fun hall => ?_⟩
        rw [h3 fun n hn => hall n (by simp [hn])]

theorem Coherent.removeIf_spec (h : c.Coherent) (pred : K × V → Bool) :
    Outcome c (.removeIf pred) (c.removeIf pred) := by
  have hindexes : Indexes c.map ([] ++ c.list) := h.indexes
  obtain ⟨h1, h2, h3⟩ := removeIfLoop_spec pred hindexes
  refine ⟨rfl, ⟨h1, h2.length_le.trans h.size_le, h.positive⟩, fun uses hr => hr.sublist (h2.map _), fun hk ht => ?_⟩
  have hsame : c.removeIf pred = c := by
    unfold removeIf
    rw [h3 hk]
  rw [hsame]
  exact ht

/-- The loop of `remove_expired` over the entries `order`. -/
theorem Coherent.removeExpired_spec {order : List K} (h : c.Coherent) (hn : order.Nodup)
    (hmem : ∀ k ∈ order, k ∈ c.accessTimes) : ∃ c', c.removeExpired now maxAge order = some c' ∧ c'.capacity = c.capacity ∧
      c'.Coherent ∧ c'.keys.Sublist c.keys ∧ (c.TimesExact → c'.TimesExact) := by
  induction order generalizing c with
  | nil => exact ⟨c, rfl, rfl, h, List.Sublist.refl _, id⟩
  | cons key order ih =>
      obtain ⟨hkey, hn⟩ := List.nodup_cons.mp hn
      obtain ⟨time, htime⟩ := Finmap.mem_iff.mp (hmem key (by simp))
      rw [removeExpired, htime]
      simp only [Option.bind_eq_bind, Option.bind_some]
      split
      · obtain ⟨c₁, b, e, hcap, htimes, hc, hsub, hkeys, _⟩ := h.erase_spec key
        rw [e, Option.bind_some]
        have hc' : Coherent { c₁ with accessTimes := c₁.accessTimes.erase key } := ⟨hc.indexes, hc.size_le, hc.positive⟩
        obtain ⟨c', e', hcap', hc'', hsub', ht'⟩ := ih hc' hn fun k hk => by
          have hne : k ≠ key := by
            rintro rfl
            exact hkey hk
          exact Finmap.mem_erase.mpr ⟨hne, by rw [htimes]; exact hmem k (List.mem_cons_of_mem _ hk)⟩
        refine ⟨c', e', hcap'.trans hcap, hc'', hsub'.trans hsub, fun ht => ht' fun k => ?_⟩
        show k ∈ c₁.accessTimes.erase key ↔ k ∈ c₁.keys
        rw [Finmap.mem_erase, hkeys, htimes, ht k]
      · exact ih h hn fun k hk => hmem k (List.mem_cons_of_mem _ hk)

/-- **One operation.** -/
theorem Coherent.exec_spec (h : c.Coherent) (op : Op K V) (hv : op.Valid c) : ∃ c', op.exec c = some c' ∧ Outcome c op c' := by
  cases op with
  | put node key value now => exact h.put_spec hv
  | get key now =>
      obtain ⟨c', v, e, ho⟩ := h.get_spec key now
      refine ⟨c', ?_, ho⟩
      rw [Op.exec, e]
      rfl
  | erase key =>
      obtain ⟨c', b, e, hcap, _, hc, hsub, _, hsame⟩ := h.erase_spec key
      refine ⟨c', ?_, hcap, hc, fun uses hr => hr.sublist hsub, fun hk ht => ?_⟩
      · rw [Op.exec, e]
        rfl
      · rw [hsame hk]
        exact ht
  | removeIf pred => exact ⟨_, rfl, h.removeIf_spec pred⟩
  | removeExpired order now maxAge =>
      obtain ⟨c', e, hcap, hc, hsub, ht⟩ := h.removeExpired_spec hv.1 fun k hk => by
        rwa [← Finmap.mem_keys, ← hv.2, List.mem_toFinset]
      exact ⟨c', e, hcap, hc, fun uses hr => hr.sublist hsub, fun _ => ht⟩
  | clear =>
      refine ⟨_, rfl, rfl, ⟨.nil, Nat.zero_le _, h.positive⟩, fun uses _ => .nil, fun hk ht k => ?_⟩
      have htk := ht k
      unfold keys at htk
      rw [show c.list = [] from hk] at htk
      exact htk

end LruCache

/-! ### Runs -/

/-- The list and the two tables belong together after the uses `uses` of keys, and a new element takes the place of the
least recently used one when the cache is full. -/
structure Consistent (capacity : ℕ) (uses : List K) (c : LruCache K V) : Prop where
  mapKeys k : k ∈ c.map ↔ k ∈ c.keys
  timeKeys k : k ∈ c.accessTimes ↔ k ∈ c.keys
  nodes k p : c.map.lookup k = some p → ∃ v, nodeAt c.list p = some ⟨p, k, v⟩
  size_le : c.capacity = capacity ∧ c.list.length ≤ capacity
  recent : c.keys.Nodup ∧ RecentFirst uses c.keys
  evicts (node : ℕ) (key : K) (value : V) (now : ℤ) : (Op.put node key value now).Valid c → key ∉ c.keys → c.list.length = capacity →
    ∃ c' last, c.put node key value now = some c' ∧ c.keys = c.keys.dropLast ++ [last] ∧
      c'.list = ⟨node, key, value⟩ :: c.list.dropLast
  succeeds (op : Op K V) : op.Valid c → (op.exec c).isSome

section

variable {c c₀ c' : LruCache K V} {op : Op K V} {ops : List (Op K V)} {capacity : ℕ} {uses : List K}

theorem LruCache.Coherent.consistent (h : c.Coherent) (ht : c.TimesExact) (hr : RecentFirst uses c.keys) :
    Consistent c.capacity uses c := by
  refine ⟨fun k => h.indexes.mem_iff, ht, fun k p hp => ?_, ⟨rfl, h.size_le⟩, ⟨h.indexes.keys, hr⟩,
    fun node key value now hv hnew hfull => ?_, fun op hv => ?_⟩
  · obtain ⟨l₁, n, l₂, hl, rfl, rfl⟩ := h.indexes.split hp
    have hindexes := h.indexes
    rw [hl] at hindexes ⊢
    exact ⟨n.value, hindexes.nodeAt_eq⟩
  · obtain ⟨r, he, hr⟩ := h.evict_spec
    have hm : c.map.lookup key = none := Finmap.lookup_eq_none.mpr fun hk => hnew (h.indexes.mem_iff.mp hk)
    rcases hr with ⟨hlt, _⟩ | ⟨l, last, hl, _, rfl⟩
    · omega
    · refine ⟨{ c with
        list := ⟨node, key, value⟩ :: l
        map := (c.map.erase last.key).insert key node
        accessTimes := (c.accessTimes.erase last.key).insert key now }, last.key, ?_, ?_, ?_⟩
      · unfold LruCache.put
        rw [hm]
        simp only [he, Option.bind_eq_bind, Option.bind_some]
        rfl
      · unfold LruCache.keys
        rw [hl, List.map_append, List.map_singleton, List.dropLast_concat]
      · rw [hl, List.dropLast_concat]
  · obtain ⟨c', e, _⟩ := h.exec_spec op hv
    rw [e]
    rfl

omit [DecidableEq K] in
theorem used_append (ops : List (Op K V)) (op : Op K V) : used (ops ++ [op]) = op.used.toList ++ used ops := by
  unfold used
  rw [List.filterMap_append, List.reverse_append]
  congr 1
  cases h : op.used <;> simp [h]

/-- **The three belong together** after any operations of which `erase`, `remove_if` and `clear` remove nothing. -/
theorem run_consistent (h₀ : LruCache.make capacity = some c₀) (hr : Run (Guarded Op.KeepsTimes LruStep) c₀ ops c) :
    Consistent capacity (used ops) c := by
  have hstart : c₀.capacity = capacity ∧ c₀.Coherent ∧ c₀.TimesExact ∧ RecentFirst (used ([] : List (Op K V))) c₀.keys := by
    unfold LruCache.make at h₀
    split at h₀
    · cases h₀
    · rename_i hpos
      obtain rfl := Option.some.inj h₀
      refine ⟨rfl, ⟨.nil, Nat.zero_le _, Nat.pos_of_ne_zero hpos⟩, fun k => ?_, .nil⟩
      exact ⟨fun hk => absurd hk Finmap.notMem_empty, fun hk => by cases hk⟩
  have hrun := hr.history (P := fun ops c => c.capacity = capacity ∧ c.Coherent ∧ c.TimesExact ∧ RecentFirst (used ops) c.keys)
    hstart fun {ops c op c'} hc hst => by
      obtain ⟨hcap, hcoh, ht, hrec⟩ := hc
      obtain ⟨hk, hv, e⟩ := hst
      obtain ⟨c'', e', ho⟩ := hcoh.exec_spec op hv
      obtain rfl := Option.some.inj (e.symm.trans e')
      refine ⟨ho.capacity.trans hcap, ho.coherent, ho.times hk ht, ?_⟩
      rw [used_append]
      exact ho.recent _ hrec
  obtain ⟨hcap, hcoh, ht, hrec⟩ := hrun
  rw [← hcap]
  exact hcoh.consistent ht hrec

/-- The element `2` makes room for the element `3`. -/
theorem run_consistent_sample : ∃ (c : LruCache ℕ ℕ) (ops : List (Op ℕ ℕ)), c.keys = [3, 1] ∧ used ops = [3, 1, 2, 1] ∧
    Consistent 2 (used ops) c := by
  have h : (([.put 7 1 10 0, .put 8 2 20 1, .get 1 2, .put 8 3 30 3, .erase 2, .removeExpired [1, 3] 4 5] :
      List (Op ℕ ℕ)).foldlM (Run.guardExec (fun c op => op.KeepsTimes c ∧ op.Valid c) Op.exec) ⟨2, [], ∅, ∅⟩).map
      LruCache.keys = some [3, 1] := by decide
  obtain ⟨c, hc, hkeys⟩ := Option.map_eq_some_iff.mp h
  have hr := (Run.of_guardExec hc).mono fun {c op c'} hst =>
    show Guarded Op.KeepsTimes LruStep c op c' from ⟨hst.1.1, hst.1.2, hst.2⟩
  exact ⟨c, _, hkeys, rfl, run_consistent rfl hr⟩

/-- An element that was erased still has a time. -/
theorem erased_not_consistent : ∃ (c₀ c : LruCache ℕ ℕ) (ops : List (Op ℕ ℕ)), LruCache.make 1 = some c₀ ∧
    Run LruStep c₀ ops c ∧ 5 ∈ c.accessTimes ∧ 5 ∉ c.keys := by
  have h : (([.put 7 5 10 0, .erase 5] : List (Op ℕ ℕ)).foldlM (Run.guardExec (fun c op => op.Valid c) Op.exec)
      ⟨1, [], ∅, ∅⟩).map (fun c => (decide (5 ∈ c.accessTimes), c.keys)) = some (true, []) := by decide
  obtain ⟨c, hc, h5⟩ := Option.map_eq_some_iff.mp h
  rw [Prod.mk.injEq, decide_eq_true_eq] at h5
  exact ⟨_, c, _, rfl, Run.of_guardExec hc, h5.1, by simp [h5.2]⟩

end

end NeForce.Lru
