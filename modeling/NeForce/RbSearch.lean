import NeForce.RbTreeAt

/-! # The descents and the lookups

A descent through a tree that goes left where `p` holds ends at the empty place `descend p`; in a
sequence in which `p` holds from some element on, that place is the cut (`cut_descend`).  The loops
of the source follow it: `insertPlace` yields the node above the place, `boundLoop` the first
element after it.  With this the lookups are read off the sorted sequence: `lowerBound_spec`,
`upperBound_spec`, `find_spec`, `contains_spec`, `count_spec`. -/

namespace NeForce.Rb

open Ctx RbNode

variable {V K : Type}

/-! ### Descents -/

section

variable {p : ℕ → Bool} {ctx : Ctx ℕ} {t : Tree ℕ}

/-- The context of the empty place where the descent ends. -/
def descend (p : ℕ → Bool) : Ctx ℕ → Tree ℕ → Ctx ℕ
  | ctx, .nil => ctx
  | ctx, .node c l a r =>
      if p a then descend p (⟨.left, c, a, r⟩ :: ctx) l else descend p (⟨.right, c, a, l⟩ :: ctx) r

theorem plug_descend (p : ℕ → Bool) (ctx : Ctx ℕ) (t : Tree ℕ) :
    plug (descend p ctx t) .nil = plug ctx t := by
  induction t generalizing ctx with
  | nil => rfl
  | node c l a r ihl ihr =>
      rw [descend]
      split_ifs
      · rw [ihl]
        rfl
      · rw [ihr]
        rfl

/-- Every frame lies on the side that `p` tells. -/
def Path (p : ℕ → Bool) (ctx : Ctx ℕ) : Prop := ∀ f ∈ ctx, p f.addr = (f.side == .left)

theorem path_descend (h : Path p ctx) : Path p (descend p ctx t) := by
  induction t generalizing ctx with
  | nil => exact h
  | node c l a r ihl ihr =>
      rw [descend]
      split_ifs with hp
      · refine ihl fun f hf => ?_
        rcases List.mem_cons.mp hf with rfl | hf
        · exact hp
        · exact h f hf
      · refine ihr fun f hf => ?_
        rcases List.mem_cons.mp hf with rfl | hf
        · have : p a = false := by simpa using hp
          exact this
        · exact h f hf

theorem cut_of_path (h : Path p ctx) (hu : Upward p (before ctx ++ after ctx)) :
    Cut p (before ctx ++ after ctx) (before ctx) (after ctx) := by
  refine ⟨rfl, ?_, ?_⟩
  · induction ctx with
    | nil => simp
    | cons f ctx ih =>
        have hu' : Upward p (before ctx ++ after ctx) := hu.sublist (by
          rw [before_cons, after_cons]
          exact (List.sublist_append_left _ _).append (List.sublist_append_right _ _))
        intro a ha
        rw [before_cons, List.mem_append] at ha
        rcases ha with ha | ha
        · exact ih (fun g hg => h g (List.mem_cons_of_mem _ hg)) hu' a ha
        · have hf := h f (by simp)
          obtain ⟨s, c, x, u⟩ := f
          cases s with
          | left => simp [Frame.before] at ha
          | right =>
              simp only [Frame.before, List.mem_append, List.mem_singleton] at ha
              have hx : p x = false := hf
              rcases ha with ha | rfl
              · have hs : (u.inorder ++ [x]).Sublist
                    (before (⟨.right, c, x, u⟩ :: ctx) ++ after (⟨.right, c, x, u⟩ :: ctx)) := by
                  rw [before_cons]
                  exact (List.sublist_append_right _ _).trans (List.sublist_append_left _ _)
                have := (List.pairwise_append.mp (hu.sublist hs)).2.2 a ha x (by simp)
                cases hpa : p a with
                | false => rfl
                | true =>
                    rw [this hpa] at hx
                    cases hx
              · exact hx
  · induction ctx with
    | nil => simp
    | cons f ctx ih =>
        have hu' : Upward p (before ctx ++ after ctx) := hu.sublist (by
          rw [before_cons, after_cons]
          exact (List.sublist_append_left _ _).append (List.sublist_append_right _ _))
        intro a ha
        rw [after_cons, List.mem_append] at ha
        rcases ha with ha | ha
        · have hf := h f (by simp)
          obtain ⟨s, c, x, u⟩ := f
          cases s with
          | right => simp [Frame.after] at ha
          | left =>
              have hx : p x = true := hf
              rcases List.mem_cons.mp ha with rfl | ha
              · exact hx
              · have hs : (x :: u.inorder).Sublist
                    (before (⟨.left, c, x, u⟩ :: ctx) ++ after (⟨.left, c, x, u⟩ :: ctx)) := by
                  rw [after_cons]
                  exact (List.sublist_append_left _ _).trans (List.sublist_append_right _ _)
                exact (List.pairwise_cons.mp (hu.sublist hs)).1 a ha hx
        · exact ih (fun g hg => h g (List.mem_cons_of_mem _ hg)) hu' a ha

end

/-! ### The loops -/

section

variable {key : V → K} {h : Heap V} {hd : ℕ} {l : List ℕ} {ctx : Ctx ℕ} {t : Tree ℕ}

/-- The value of a test at the key of a node. -/
def testAt (key : V → K) (h : Heap V) (q : K → Bool) (a : ℕ) : Bool := ((getKey key h a).map q).getD false

theorem testAt_eq {a : ℕ} {v : V} {q : K → Bool} (e : getData h a = some v) :
    testAt key h q a = q (key v) := by
  simp [testAt, getKey, e]

theorem insertPlace_eq (key : V → K) {o : StrictWeakOrder K} {k : K} {n : ℕ} (comp : Bool) (hat : At h hd l ctx t)
    (hn : t.inorder.length < n) (hcomp : comp = true ↔ ∀ f rest, ctx = f :: rest → f.side = .left) :
    ∃ comp', insertPlace key o k h n (ptr t) (holder hd ctx) comp =
        some (holder hd (descend (testAt key h (o.lt k)) ctx t), comp') ∧
      (comp' = true ↔ ∀ f rest, descend (testAt key h (o.lt k)) ctx t = f :: rest → f.side = .left) := by
  induction t generalizing ctx n comp with
  | nil =>
      obtain ⟨n, rfl⟩ : ∃ j, n = j + 1 := ⟨n - 1, by simp at hn; omega⟩
      exact ⟨comp, by simp [insertPlace, descend], hcomp⟩
  | node c tl a tr ihl ihr =>
      obtain ⟨n, rfl⟩ : ∃ j, n = j + 1 := ⟨n - 1, by omega⟩
      obtain ⟨⟨v, hv⟩, _⟩ := hat.tree
      have hlen : tl.inorder.length < n ∧ tr.inorder.length < n := by
        simp only [Tree.inorder_node, List.length_append, List.length_cons] at hn
        omega
      have hd' : getData h a = some v := getData_eq hv
      have ha0 : a ≠ 0 := hat.ne_zero hv
      rw [insertPlace, ptr_node, if_neg ha0, getKey, hd']
      simp only [Option.map_some, Option.bind_eq_bind, Option.bind_some, descend, testAt_eq hd']
      by_cases hlt : o.lt k (key v) = true
      · rw [if_pos hlt, if_pos hlt, getChild_eq _ hv]
        obtain ⟨comp', e, hc⟩ := ihl (n := n) true (At.cons_iff (f := ⟨.left, c, a, tr⟩).mpr hat)
          hlen.1 (by simp)
        refine ⟨comp', ?_, hc⟩
        rw [hlt]
        exact e
      · rw [if_neg hlt, if_neg hlt, getChild_eq _ hv]
        have hlt' : o.lt k (key v) = false := by simpa using hlt
        obtain ⟨comp', e, hc⟩ := ihr (n := n) false (At.cons_iff (f := ⟨.right, c, a, tl⟩).mpr hat)
          hlen.2 (by simp)
        refine ⟨comp', ?_, hc⟩
        rw [hlt']
        exact e

theorem boundLoop_eq (key : V → K) {q : K → Bool} {n : ℕ} (hat : At h hd l ctx t) (hn : t.inorder.length < n) :
    boundLoop key q h n (ptr t) (endD .left (after ctx) hd) =
      some (endD .left (after (descend (testAt key h q) ctx t)) hd) := by
  induction t generalizing ctx n with
  | nil =>
      obtain ⟨n, rfl⟩ : ∃ j, n = j + 1 := ⟨n - 1, by simp at hn; omega⟩
      simp [boundLoop, descend]
  | node c tl a tr ihl ihr =>
      obtain ⟨n, rfl⟩ : ∃ j, n = j + 1 := ⟨n - 1, by omega⟩
      obtain ⟨⟨v, hv⟩, _⟩ := hat.tree
      have hlen : tl.inorder.length < n ∧ tr.inorder.length < n := by
        simp only [Tree.inorder_node, List.length_append, List.length_cons] at hn
        omega
      have hd' : getData h a = some v := getData_eq hv
      rw [boundLoop, ptr_node, if_neg (hat.ne_zero hv), getKey, hd']
      simp only [Option.map_some, Option.bind_eq_bind, Option.bind_some, descend, testAt_eq hd']
      split_ifs with hq
      · rw [getChild_eq _ hv]
        exact ihl (n := n) (At.cons_iff (f := ⟨.left, c, a, tr⟩).mpr hat) hlen.1
      · rw [getChild_eq _ hv]
        exact ihr (n := n) (At.cons_iff (f := ⟨.right, c, a, tl⟩).mpr hat) hlen.2

end

/-! ### Places in the sequence of an object -/

section

variable {key : V → K} {h : Heap V} {t : RbTree K} {s s₁ s₂ : List (ℕ × V)} {T : Tree ℕ} {k : K}

/-- An empty place between `s₁` and `s₂`. -/
structure Hole (h : Heap V) (t : RbTree K) (ctx : Ctx ℕ) (s₁ s₂ : List (ℕ × V)) : Prop where
  at_nil : At h t.header ((s₁ ++ s₂).map Prod.fst) ctx .nil
  ctxRB : CtxRB ctx 0
  low : s₁.map Prod.fst = before ctx
  high : s₂.map Prod.fst = after ctx

theorem TreeAt.hole {ctx : Ctx ℕ} (hT : TreeAt key h t (s₁ ++ s₂) T) (hp : plug ctx .nil = T)
    (hl : (s₁.map Prod.fst).length = (before ctx).length) : Hole h t ctx s₁ s₂ := by
  obtain ⟨n, hrb⟩ := hT.balanced
  have hb := hT.black
  have hat := hT.linked
  subst hp
  obtain ⟨m, hctx, hm, _⟩ := rb_of_plug hrb hb
  obtain rfl : m = 0 := hm
  have e := hat.labels
  rw [plug_nil, inorder_plug, Tree.inorder_nil, List.append_nil, List.map_append] at e
  obtain ⟨e1, e2⟩ := List.append_inj e hl.symm
  refine ⟨?_, hctx, e1.symm, e2.symm⟩
  have : At h t.header ((s₁ ++ s₂).map Prod.fst) (ctx ++ []) .nil := (At.iff_plug ctx []).mpr hat
  rwa [List.append_nil] at this

theorem TreeAt.getKey_eq (hT : TreeAt key h t s T) {e : ℕ × V} (he : e ∈ s) :
    getKey key h e.1 = some (key e.2) := by
  rw [getKey, hT.data e he]
  rfl

theorem TreeAt.length_lt (hT : TreeAt key h t s T) (hok : h.Ok) : s.length < h.next := by
  have hn := (List.nodup_cons.mp hT.linked.nodup).2
  have := hok.length_lt hn fun a ha => by
    obtain ⟨n, hload, _⟩ := hT.linked.load_isSome a ha
    simp [hload]
  simpa using this

theorem TreeAt.length_inorder (hT : TreeAt key h t s T) : T.inorder.length = s.length := by
  have e := congrArg List.length hT.linked.labels
  simpa using e

/-- The place where a test starts to hold. -/
theorem TreeAt.place (hT : TreeAt key h t s T) {q : K → Bool} (hu : Upward (fun e => q (key e.2)) s) :
    ∃ s₁ s₂, Cut (fun e : ℕ × V => q (key e.2)) s s₁ s₂ ∧
      Hole h t (descend (testAt key h q) [] T) s₁ s₂ ∧ Path (testAt key h q) (descend (testAt key h q) [] T) := by
  set ctx := descend (testAt key h q) [] T with hctx
  have hpath : Path (testAt key h q) ctx := path_descend fun f hf => by simp at hf
  have hplug : plug ctx .nil = T := plug_descend _ _ _
  have hl : before ctx ++ after ctx = s.map Prod.fst := by
    have := hT.linked.labels
    rw [plug_nil, ← hplug, inorder_plug] at this
    simpa using this
  have htest : ∀ e ∈ s, testAt key h q e.1 = q (key e.2) := fun e he => testAt_eq (hT.data e he)
  have hup : Upward (testAt key h q) (before ctx ++ after ctx) := by
    rw [hl]
    refine List.pairwise_map.mpr (List.Pairwise.imp_of_mem ?_ hu)
    intro a b ha hb hab
    rw [htest a ha, htest b hb]
    exact hab
  have hcut := cut_of_path hpath hup
  obtain ⟨s₁, s₂, rfl, e1, e2⟩ := List.map_eq_append_iff.mp hl.symm
  refine ⟨s₁, s₂, ⟨rfl, fun e he => ?_, fun e he => ?_⟩, hT.hole hplug (by rw [e1]), hpath⟩
  · rw [← htest e (List.mem_append_left _ he)]
    exact hcut.low _ (by rw [← e1]; exact List.mem_map_of_mem he)
  · rw [← htest e (List.mem_append_right _ he)]
    exact hcut.high _ (by rw [← e2]; exact List.mem_map_of_mem he)

/-- The first node of a sequence, or the header. -/
def firstOr (t : RbTree K) (s : List (ℕ × V)) : ℕ := endD .left (s.map Prod.fst) t.header

theorem firstOr_nil (t : RbTree K) : firstOr t ([] : List (ℕ × V)) = t.header := rfl

theorem firstOr_cons (t : RbTree K) (e : ℕ × V) (s : List (ℕ × V)) : firstOr t (e :: s) = e.1 := rfl

theorem TreeAt.begin_eq (hT : TreeAt key h t s T) : begin h t = some (firstOr t s) := by
  obtain ⟨n, hn, _, he⟩ := hT.ends
  rw [begin, getChild_eq _ hn, he]
  rfl

theorem TreeAt.ne_header (hT : TreeAt key h t s T) {e : ℕ × V} (he : e ∈ s) : e.1 ≠ t.header := by
  intro heq
  exact (List.nodup_cons.mp hT.linked.nodup).1 (heq ▸ List.mem_map_of_mem he)

/-- The loop of the lookups finds the first element after the cut. -/
theorem TreeAt.boundLoop_eq (hT : TreeAt key h t s T) (hok : h.Ok) {q : K → Bool}
    (hc : Cut (fun e : ℕ × V => q (key e.2)) s s₁ s₂) (hu : Upward (fun e => q (key e.2)) s) :
    (do
      let root ← getParent h t.header
      boundLoop key q h (walkBound h) root t.header) = some (firstOr t s₂) := by
  obtain ⟨t₁, t₂, hc', hole, _⟩ := hT.place hu
  obtain ⟨rfl, rfl⟩ := hc.unique hc'
  have hlen := hT.length_lt hok
  have hin := hT.length_inorder
  have := Rb.boundLoop_eq key (q := q) (n := walkBound h) hT.linked (by unfold walkBound; omega)
  rw [hT.linked.getParent_header, plug_nil]
  simp only [Option.bind_eq_bind, Option.bind_some]
  rw [after_nil, endD_nil] at this
  rw [this, firstOr, hole.high]

/-- **`lower_bound`** -/
theorem TreeAt.lowerBound_eq (hT : TreeAt key h t s T) (hok : h.Ok)
    (hc : Cut (notBelow t.keyCompare (fun e : ℕ × V => key e.2) k) s s₁ s₂) :
    lowerBound key h t k = some (firstOr t s₂) :=
  hT.boundLoop_eq hok hc (hT.sorted.upward_notBelow k)

/-- **`upper_bound`** -/
theorem TreeAt.upperBound_eq (hT : TreeAt key h t s T) (hok : h.Ok)
    (hc : Cut (above t.keyCompare (fun e : ℕ × V => key e.2) k) s s₁ s₂) :
    upperBound key h t k = some (firstOr t s₂) :=
  hT.boundLoop_eq hok hc (hT.sorted.upward_above k)

/-- Both bounds, and what lies between them. -/
theorem TreeAt.exists_bounds (hT : TreeAt key h t s T) (k : K) :
    ∃ s₁ m s₂, s = s₁ ++ m ++ s₂ ∧ Cut (notBelow t.keyCompare (fun e : ℕ × V => key e.2) k) s s₁ (m ++ s₂) ∧
      Cut (above t.keyCompare (fun e : ℕ × V => key e.2) k) s (s₁ ++ m) s₂ ∧
      (∀ e ∈ m, t.keyCompare.Equiv (key e.2) k) ∧ ∀ e ∈ s₁ ++ s₂, ¬ t.keyCompare.Equiv (key e.2) k :=
  hT.sorted.exists_bounds k

/-! ### Iterators -/

theorem append_cons_inj {a : ℕ} {l₁ l₂ m₁ m₂ : List ℕ} (hn : (l₁ ++ a :: l₂).Nodup)
    (e : l₁ ++ a :: l₂ = m₁ ++ a :: m₂) : l₁ = m₁ ∧ l₂ = m₂ := by
  rcases List.append_eq_append_iff.mp e with ⟨w, e1, e2⟩ | ⟨w, e1, e2⟩
  · cases w with
    | nil =>
        rw [List.append_nil] at e1
        rw [List.nil_append] at e2
        exact ⟨e1.symm, (List.cons.inj e2).2⟩
    | cons b w =>
        obtain ⟨rfl, rfl⟩ := List.cons.inj e2
        simp [List.nodup_append] at hn
  · cases w with
    | nil =>
        rw [List.append_nil] at e1
        rw [List.nil_append] at e2
        exact ⟨e1, (List.cons.inj e2).2.symm⟩
    | cons b w =>
        obtain ⟨rfl, rfl⟩ := List.cons.inj e2
        rw [e1] at hn
        simp [List.nodup_append] at hn

/-- The tree seen from one of its elements. -/
theorem TreeAt.focus {e : ℕ × V} (hT : TreeAt key h t (s₁ ++ e :: s₂) T) :
    ∃ ctx c tl tr, T = plug ctx (.node c tl e.1 tr) ∧
      At h t.header ((s₁ ++ e :: s₂).map Prod.fst) ctx (.node c tl e.1 tr) ∧
      before ctx ++ tl.inorder = s₁.map Prod.fst ∧ tr.inorder ++ after ctx = s₂.map Prod.fst := by
  have hl := hT.linked.labels
  rw [plug_nil] at hl
  have hmem : e.1 ∈ T.inorder := by
    rw [hl]
    simp
  obtain ⟨ctx, c, tl, tr, rfl⟩ := exists_focus hmem
  have hn := (List.nodup_cons.mp hT.linked.nodup).2
  have e' : (before ctx ++ tl.inorder) ++ e.1 :: (tr.inorder ++ after ctx) =
      s₁.map Prod.fst ++ e.1 :: s₂.map Prod.fst := by
    rw [inorder_plug] at hl
    simpa using hl
  have hn' : ((before ctx ++ tl.inorder) ++ e.1 :: (tr.inorder ++ after ctx)).Nodup := by
    rw [e']
    simpa using hn
  obtain ⟨e1, e2⟩ := append_cons_inj hn' e'
  have hat := (At.iff_plug ctx []).mpr hT.linked
  rw [List.append_nil] at hat
  exact ⟨ctx, c, tl, tr, rfl, hat, e1, e2⟩

/-- The last node of a sequence, or the header. -/
def lastOr (t : RbTree K) (s : List (ℕ × V)) : ℕ := endD .right (s.map Prod.fst) t.header

theorem lastOr_append (t : RbTree K) (s : List (ℕ × V)) (e : ℕ × V) : lastOr t (s ++ [e]) = e.1 := by
  rw [lastOr, List.map_append, endD_right_append]
  rfl

/-- **`increment`** -/
theorem TreeAt.increment_eq {e : ℕ × V} (hT : TreeAt key h t (s₁ ++ e :: s₂) T) (hok : h.Ok) :
    increment h e.1 = some (firstOr t s₂) := by
  obtain ⟨ctx, c, tl, tr, rfl, hat, _, e2⟩ := hT.focus
  rw [increment_at hok hat hT.ends, firstOr, e2]

/-- **`decrement`** at an element that is not the first. -/
theorem TreeAt.decrement_eq {e : ℕ × V} (hT : TreeAt key h t (s₁ ++ e :: s₂) T) (hok : h.Ok) (hs : s₁ ≠ []) :
    decrement h e.1 = some (lastOr t s₁) := by
  obtain ⟨ctx, c, tl, tr, rfl, hat, e1, _⟩ := hT.focus
  rw [decrement_at hok hat hT.black (by rw [e1]; simpa using hs), lastOr, e1]

/-- **`--end()`** -/
theorem TreeAt.decrement_end (hT : TreeAt key h t s T) (hs : s ≠ []) :
    decrement h t.header = some (lastOr t s) := by
  refine decrement_header hT.linked ?_ hT.ends
  rintro rfl
  have := hT.length_inorder
  rw [Tree.inorder_nil, List.length_nil] at this
  exact hs (List.length_eq_zero_iff.mp this.symm)

theorem TreeAt.iterIncrement_eq {dbg : Bool} {e : ℕ × V} (hT : TreeAt key h t (s₁ ++ e :: s₂) T)
    (hok : h.Ok) : iterIncrement dbg h t e.1 = some (firstOr t s₂) := by
  have h1 := hT.ne_header (e := e) (by simp)
  obtain ⟨n, hn, _⟩ := hT.linked.load_isSome e.1 (by simp)
  have h2 := hok.ne_zero hn
  simp [iterIncrement, debugVerify, h1, h2, hT.increment_eq hok]

theorem TreeAt.iterDecrement_eq {dbg : Bool} {e : ℕ × V} (hT : TreeAt key h t (s₁ ++ e :: s₂) T)
    (hok : h.Ok) (hs : s₁ ≠ []) : iterDecrement dbg h t e.1 = some (lastOr t s₁) := by
  have h1 := hT.ne_header (e := e) (by simp)
  obtain ⟨n, hn, _⟩ := hT.linked.load_isSome e.1 (by simp)
  have h2 := hok.ne_zero hn
  simp [iterDecrement, debugVerify, h1, h2, hT.decrement_eq hok hs]

theorem TreeAt.iterDecrement_end {dbg : Bool} (hT : TreeAt key h t s T) (hs : s ≠ []) :
    iterDecrement dbg h t t.header = some (lastOr t s) := by
  obtain ⟨n, hn, _⟩ := hT.ends
  have h1 := hT.linked.ne_zero hn
  have h2 : t.size ≠ 0 := by
    rw [hT.size]
    exact fun h0 => hs (List.length_eq_zero_iff.mp h0)
  simp [iterDecrement, debugVerify, h1, h2, hT.decrement_end hs]

/-! ### Lookups -/

/-- **`find`** yields the first equivalent element. -/
theorem TreeAt.find_eq {m : List (ℕ × V)} (hT : TreeAt key h t s T) (hok : h.Ok)
    (h₁ : Cut (notBelow t.keyCompare (fun e : ℕ × V => key e.2) k) s s₁ (m ++ s₂))
    (h₂ : Cut (above t.keyCompare (fun e : ℕ × V => key e.2) k) s (s₁ ++ m) s₂) :
    find key h t k = some (firstOr t m) := by
  rw [find, hT.lowerBound_eq hok h₁]
  simp only [Option.bind_eq_bind, Option.bind_some]
  cases m with
  | nil =>
      cases s₂ with
      | nil => simp [firstOr_nil]
      | cons e s₂ =>
          have he : e ∈ s := by
            rw [h₁.eq]
            simp
          have hlt := h₂.high e (by simp)
          rw [above] at hlt
          rw [List.nil_append, firstOr_cons, if_neg (hT.ne_header he), hT.getKey_eq he, Option.bind_some, if_pos hlt]
          rfl
  | cons e m =>
      have he : e ∈ s := by
        rw [h₁.eq]
        simp
      have hlt := h₂.low e (by simp)
      rw [above] at hlt
      rw [List.cons_append, firstOr_cons, if_neg (hT.ne_header he), hT.getKey_eq he, Option.bind_some, hlt]
      rfl

/-- **`contains`** -/
theorem TreeAt.contains_eq {m : List (ℕ × V)} (hT : TreeAt key h t s T) (hok : h.Ok)
    (h₁ : Cut (notBelow t.keyCompare (fun e : ℕ × V => key e.2) k) s s₁ (m ++ s₂))
    (h₂ : Cut (above t.keyCompare (fun e : ℕ × V => key e.2) k) s (s₁ ++ m) s₂) :
    contains key h t k = some !m.isEmpty := by
  rw [contains, hT.lowerBound_eq hok h₁]
  simp only [Option.bind_eq_bind, Option.bind_some]
  cases m with
  | nil =>
      cases s₂ with
      | nil => simp [firstOr_nil]
      | cons e s₂ =>
          have he : e ∈ s := by
            rw [h₁.eq]
            simp
          have hlt := h₂.high e (by simp)
          rw [above] at hlt
          rw [List.nil_append, firstOr_cons, if_neg (hT.ne_header he), hT.getKey_eq he, Option.bind_some, hlt]
          rfl
  | cons e m =>
      have he : e ∈ s := by
        rw [h₁.eq]
        simp
      have hlt := h₂.low e (by simp)
      rw [above] at hlt
      rw [List.cons_append, firstOr_cons, if_neg (hT.ne_header he), hT.getKey_eq he, Option.bind_some, hlt]
      rfl

/-- The loop of `count` runs to the upper bound. -/
theorem TreeAt.countLoop_eq {m : List (ℕ × V)} {j n : ℕ} (hT : TreeAt key h t (s₁ ++ (m ++ s₂)) T) (hok : h.Ok)
    (hm : ∀ e ∈ m, t.keyCompare.lt k (key e.2) = false)
    (hs : ∀ e ∈ s₂, t.keyCompare.lt k (key e.2) = true) (hj : m.length < j) :
    countLoop key h t k j (firstOr t (m ++ s₂)) n = some (n + m.length) := by
  induction m generalizing s₁ j n with
  | nil =>
      obtain ⟨j, rfl⟩ : ∃ i, j = i + 1 := ⟨j - 1, by simp at hj; omega⟩
      rw [countLoop, List.nil_append]
      cases s₂ with
      | nil => simp [firstOr_nil]
      | cons e s₂ =>
          rw [firstOr_cons, if_neg (hT.ne_header (by simp)), hT.getKey_eq (by simp)]
          simp [hs e (by simp)]
  | cons e m ih =>
      obtain ⟨j, rfl⟩ : ∃ i, j = i + 1 := ⟨j - 1, by simp at hj; omega⟩
      rw [List.cons_append] at hT ⊢
      rw [countLoop, firstOr_cons, if_neg (hT.ne_header (by simp)), hT.getKey_eq (by simp)]
      simp only [Option.bind_eq_bind, Option.bind_some, hm e (by simp), Bool.false_eq_true, if_false,
        hT.increment_eq hok]
      have hT' : TreeAt key h t ((s₁ ++ [e]) ++ (m ++ s₂)) T := by simpa using hT
      rw [ih hT' (fun e' he' => hm e' (by simp [he'])) (by simpa using hj),
        List.length_cons]
      congr 1
      omega

/-- **`count`** -/
theorem TreeAt.count_eq {m : List (ℕ × V)} (hT : TreeAt key h t s T) (hok : h.Ok)
    (h₁ : Cut (notBelow t.keyCompare (fun e : ℕ × V => key e.2) k) s s₁ (m ++ s₂))
    (h₂ : Cut (above t.keyCompare (fun e : ℕ × V => key e.2) k) s (s₁ ++ m) s₂) :
    count key h t k = some m.length := by
  have hlen := hT.length_lt hok
  rw [count, hT.lowerBound_eq hok h₁]
  simp only [Option.bind_eq_bind, Option.bind_some]
  obtain rfl := h₁.eq
  cases m with
  | nil =>
      cases s₂ with
      | nil => simp [firstOr_nil]
      | cons e s₂ =>
          have hlt := h₂.high e (by simp)
          rw [above] at hlt
          rw [List.nil_append, firstOr_cons, if_neg (hT.ne_header (by simp)), hT.getKey_eq (by simp),
            Option.bind_some, if_pos hlt]
          rfl
  | cons e m =>
      have hlt := h₂.low e (by simp)
      rw [above] at hlt
      rw [List.cons_append] at hT ⊢
      rw [firstOr_cons, if_neg (hT.ne_header (by simp)), hT.getKey_eq (by simp)]
      simp only [Option.bind_some, hlt, Bool.false_eq_true, if_false, hT.increment_eq hok]
      have hT' : TreeAt key h t ((s₁ ++ [e]) ++ (m ++ s₂)) T := by simpa using hT
      rw [hT'.countLoop_eq hok (fun e' he' => h₂.low e' (by simp [he']))
        (fun e' he' => h₂.high e' he'), List.length_cons]
      · congr 1
        omega
      · simp only [List.length_append, List.length_cons] at hlen
        unfold walkBound
        omega

end

end NeForce.Rb
