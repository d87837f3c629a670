import Mathlib.Data.Nat.Log
import Mathlib.Data.List.Nodup
import Mathlib.Tactic.Ring

/-! # Coloured binary trees and their contexts

Binary trees whose nodes carry a colour and a label, and one-hole contexts (`Ctx`, innermost
frame first).  Both rebalancing loops of a red-black tree are written here as functions on a
focused subtree and its context:

* `insFix ctx t` moves a red root of `t` upwards until no red node has a red child;
* `delFix ctx t` moves a missing black node upwards until every path is complete again.

`RB n t` says that `t` has no red node with a red child and that every path from its root to
an empty tree has `n` black nodes; `CtxRB ctx n` is the matching property of a context whose
hole is to be filled by a tree of black height `n`.  The results are `insFix_rb`,
`delFix_rb` (balance is restored) and `height_le` (a balanced tree is of logarithmic height).

The two sides of a tree are handled by one definition each: `mk s c t a u` has `t` on side
`s` and `u` on the other. -/

namespace NeForce

inductive Color where
  | red
  | black
deriving DecidableEq, Repr

theorem Color.eq_red_of_ne {c : Color} (h : ¬c = .black) : c = .red := by
  cases c with
  | red => rfl
  | black => exact absurd rfl h

inductive Side where
  | left
  | right
deriving DecidableEq, Repr

/-- The other side. -/
def Side.opp : Side → Side
  | .left => .right
  | .right => .left

@[simp] theorem Side.opp_opp (s : Side) : s.opp.opp = s := by cases s <;> rfl
@[simp] theorem Side.opp_ne (s : Side) : s.opp ≠ s := by cases s <;> decide
@[simp] theorem Side.ne_opp (s : Side) : s ≠ s.opp := by cases s <;> decide

theorem Side.eq_or_opp (s t : Side) : s = t ∨ s = t.opp := by
  cases s <;> cases t <;> decide

inductive Tree (α : Type) where
  | nil
  | node (c : Color) (l : Tree α) (a : α) (r : Tree α)
deriving DecidableEq, Repr

namespace Tree

variable {α : Type}

/-- The colour of the root; an empty tree counts as black. -/
def color : Tree α → Color
  | nil => .black
  | node c _ _ _ => c

def setColor (c : Color) : Tree α → Tree α
  | nil => nil
  | node _ l a r => node c l a r

def child : Side → Tree α → Tree α
  | _, nil => nil
  | .left, node _ l _ _ => l
  | .right, node _ _ _ r => r

/-- The tree with `t` on side `s` and `u` on the other side. -/
def mk (s : Side) (c : Color) (t : Tree α) (a : α) (u : Tree α) : Tree α :=
  match s with
  | .left => node c t a u
  | .right => node c u a t

def inorder : Tree α → List α
  | nil => []
  | node _ l a r => inorder l ++ a :: inorder r

def height : Tree α → ℕ
  | nil => 0
  | node _ l _ r => max (height l) (height r) + 1

@[simp] theorem color_nil : (nil : Tree α).color = .black := rfl
@[simp] theorem color_node (c : Color) (l : Tree α) (a : α) (r : Tree α) :
    (node c l a r).color = c := rfl
@[simp] theorem color_mk (s : Side) (c : Color) (t : Tree α) (a : α) (u : Tree α) :
    (mk s c t a u).color = c := by cases s <;> rfl
@[simp] theorem setColor_node (c c' : Color) (l : Tree α) (a : α) (r : Tree α) :
    (node c l a r).setColor c' = node c' l a r := rfl
@[simp] theorem setColor_nil (c : Color) : (nil : Tree α).setColor c = nil := rfl
@[simp] theorem setColor_mk (s : Side) (c c' : Color) (t : Tree α) (a : α) (u : Tree α) :
    (mk s c t a u).setColor c' = mk s c' t a u := by cases s <;> rfl
@[simp] theorem child_nil (s : Side) : (nil : Tree α).child s = nil := by cases s <;> rfl
@[simp] theorem child_mk (s : Side) (c : Color) (t : Tree α) (a : α) (u : Tree α) :
    (mk s c t a u).child s = t := by cases s <;> rfl
@[simp] theorem child_opp_mk (s : Side) (c : Color) (t : Tree α) (a : α) (u : Tree α) :
    (mk s c t a u).child s.opp = u := by cases s <;> rfl
@[simp] theorem inorder_nil : (nil : Tree α).inorder = [] := rfl
@[simp] theorem inorder_node (c : Color) (l : Tree α) (a : α) (r : Tree α) :
    (node c l a r).inorder = l.inorder ++ a :: r.inorder := rfl
@[simp] theorem inorder_setColor (c : Color) (t : Tree α) :
    (t.setColor c).inorder = t.inorder := by cases t <;> rfl
@[simp] theorem mk_ne_nil (s : Side) (c : Color) (t : Tree α) (a : α) (u : Tree α) :
    mk s c t a u ≠ nil := by cases s <;> simp [mk]

theorem mk_opp (s : Side) (c : Color) (t : Tree α) (a : α) (u : Tree α) :
    mk s.opp c t a u = mk s c u a t := by cases s <;> rfl

theorem node_eq_mk (s : Side) (c : Color) (l : Tree α) (a : α) (r : Tree α) :
    node c l a r = mk s c ((node c l a r).child s) a ((node c l a r).child s.opp) := by
  cases s <;> rfl

/-- Every nonempty tree is a `mk` for either side. -/
theorem exists_mk (s : Side) {t : Tree α} (h : t ≠ nil) :
    ∃ a, t = mk s t.color (t.child s) a (t.child s.opp) := by
  cases t with
  | nil => exact absurd rfl h
  | node c l a r => exact ⟨a, node_eq_mk s c l a r⟩

theorem ne_nil_of_red {t : Tree α} (h : t.color = .red) : t ≠ nil := by
  rintro rfl
  cases h

theorem color_eq_black_of_ne {t : Tree α} (h : t.color ≠ .red) : t.color = .black := by
  cases hc : t.color with
  | red => exact absurd hc h
  | black => rfl

theorem mem_inorder_mk {s : Side} {c : Color} {t u : Tree α} {a x : α} :
    x ∈ (mk s c t a u).inorder ↔ x = a ∨ x ∈ t.inorder ∨ x ∈ u.inorder := by
  cases s <;> simp [mk] <;> tauto

theorem nodup_inorder_mk {s : Side} {c : Color} {t u : Tree α} {a : α} :
    (mk s c t a u).inorder.Nodup ↔
      a ∉ t.inorder ∧ a ∉ u.inorder ∧ t.inorder.Nodup ∧ u.inorder.Nodup ∧
        ∀ b ∈ t.inorder, b ∉ u.inorder := by
  cases s <;> simp only [mk, inorder_node, List.nodup_append, List.nodup_cons, List.mem_cons] <;> grind

/-! ### Balance -/

/-- No red node has a red child, and every path down to an empty tree has `n` black nodes. -/
def RB : ℕ → Tree α → Prop
  | n, nil => n = 0
  | n, node .red l _ r => l.color = .black ∧ r.color = .black ∧ RB n l ∧ RB n r
  | n, node .black l _ r => ∃ k, n = k + 1 ∧ RB k l ∧ RB k r

theorem rb_mk_red {s : Side} {n : ℕ} {t u : Tree α} {a : α} :
    RB n (mk s .red t a u) ↔
      t.color = .black ∧ u.color = .black ∧ RB n t ∧ RB n u := by
  cases s
  · exact .rfl
  · change (u.color = .black ∧ t.color = .black ∧ RB n u ∧ RB n t) ↔ _
    tauto

theorem rb_mk_black {s : Side} {n : ℕ} {t u : Tree α} {a : α} :
    RB n (mk s .black t a u) ↔ ∃ k, n = k + 1 ∧ RB k t ∧ RB k u := by
  cases s
  · exact .rfl
  · exact ⟨fun ⟨k, h1, h2, h3⟩ => ⟨k, h1, h3, h2⟩, fun ⟨k, h1, h2, h3⟩ => ⟨k, h1, h3, h2⟩⟩

theorem RB.mk_black {s : Side} {n : ℕ} {t u : Tree α} {a : α} (ht : RB n t) (hu : RB n u) :
    RB (n + 1) (mk s .black t a u) := rb_mk_black.2 ⟨n, rfl, ht, hu⟩

theorem RB.ne_nil {n : ℕ} {t : Tree α} (h : RB (n + 1) t) : t ≠ nil := by
  rintro rfl
  exact Nat.succ_ne_zero n h

theorem RB.of_mk_black {s : Side} {n : ℕ} {t u : Tree α} {a : α}
    (h : RB (n + 1) (mk s .black t a u)) : RB n t ∧ RB n u := by
  obtain ⟨k, hk, ht, hu⟩ := rb_mk_black.1 h
  obtain rfl : k = n := by omega
  exact ⟨ht, hu⟩

/-- Painting a balanced red root black adds one to the black height. -/
theorem RB.setColor_black {n : ℕ} {t : Tree α} (hc : t.color = .red) (h : RB n t) :
    RB (n + 1) (t.setColor .black) := by
  cases t with
  | nil => cases hc
  | node c l a r =>
      obtain rfl : c = .red := hc
      exact ⟨n, rfl, h.2.2.1, h.2.2.2⟩

@[simp] theorem color_setColor_black (t : Tree α) : (t.setColor .black).color = .black := by
  cases t <;> rfl

theorem setColor_self {t : Tree α} {c : Color} (h : t.color = c) : t.setColor c = t := by
  cases t with
  | nil => rfl
  | node c' l a r => rw [← h]; rfl

/-- A balanced tree of black height `n` holds at least `2 ^ n - 1` labels. -/
theorem RB.two_pow_le {n : ℕ} {t : Tree α} (h : RB n t) :
    2 ^ n ≤ t.inorder.length + 1 := by
  induction t generalizing n with
  | nil => simp [RB] at h; simp [h]
  | node c l a r ihl ihr =>
      simp only [inorder_node, List.length_append, List.length_cons]
      cases c with
      | red =>
          have := ihl h.2.2.1
          omega
      | black =>
          obtain ⟨k, rfl, hl, hr⟩ := h
          have h1 := ihl hl
          have h2 := ihr hr
          rw [pow_succ]
          omega

/-- The longest path alternates colours at worst. -/
theorem RB.height_le {n : ℕ} {t : Tree α} (h : RB n t) :
    t.height ≤ 2 * n + (if t.color = .red then 1 else 0) := by
  induction t generalizing n with
  | nil => simp [height]
  | node c l a r ihl ihr =>
      cases c with
      | red =>
          obtain ⟨h1, h2, hl, hr⟩ := h
          have hl' := ihl hl
          have hr' := ihr hr
          simp only [h1, h2, reduceCtorEq, if_false, add_zero] at hl' hr'
          simp only [height, color_node, if_true]
          omega
      | black =>
          obtain ⟨k, rfl, hl, hr⟩ := h
          have hl' := ihl hl
          have hr' := ihr hr
          simp only [height, color_node, reduceCtorEq, if_false]
          split_ifs at hl' hr' <;> omega

/-- **Logarithmic height**: `height ≤ 2 log₂ (size + 1)` for a balanced tree with black root. -/
theorem height_le {n : ℕ} {t : Tree α} (h : RB n t) (hc : t.color = .black) :
    t.height ≤ 2 * Nat.log 2 (t.inorder.length + 1) := by
  have h1 := h.height_le
  simp only [hc, reduceCtorEq, if_false, add_zero] at h1
  have h2 : n ≤ Nat.log 2 (t.inorder.length + 1) :=
    Nat.le_log_of_pow_le (by decide) h.two_pow_le
  omega

end Tree

/-! ### Contexts -/

/-- One level of a context: the hole hangs on side `side` of a node labelled `addr` whose
other child is `sib`. -/
structure Frame (α : Type) where
  side : Side
  color : Color
  addr : α
  sib : Tree α

abbrev Ctx (α : Type) := List (Frame α)

namespace Frame

variable {α : Type}

def fill (f : Frame α) (t : Tree α) : Tree α := Tree.mk f.side f.color t f.addr f.sib

/-- The labels before the hole, at this level. -/
def before (f : Frame α) : List α :=
  match f.side with
  | .left => []
  | .right => f.sib.inorder ++ [f.addr]

/-- The labels after the hole, at this level. -/
def after (f : Frame α) : List α :=
  match f.side with
  | .left => f.addr :: f.sib.inorder
  | .right => []

theorem inorder_fill (f : Frame α) (t : Tree α) :
    (f.fill t).inorder = f.before ++ t.inorder ++ f.after := by
  obtain ⟨s, c, a, u⟩ := f
  cases s <;> simp [fill, before, after, Tree.mk]

@[simp] theorem color_fill (f : Frame α) (t : Tree α) : (f.fill t).color = f.color := by
  simp [fill]

end Frame

namespace Ctx

variable {α : Type}

def plug : Ctx α → Tree α → Tree α
  | [], t => t
  | f :: ctx, t => plug ctx (f.fill t)

def before : Ctx α → List α
  | [] => []
  | f :: ctx => before ctx ++ f.before

def after : Ctx α → List α
  | [] => []
  | f :: ctx => f.after ++ after ctx

@[simp] theorem plug_nil (t : Tree α) : plug [] t = t := rfl
@[simp] theorem plug_cons (f : Frame α) (ctx : Ctx α) (t : Tree α) :
    plug (f :: ctx) t = plug ctx (f.fill t) := rfl
@[simp] theorem before_nil : before ([] : Ctx α) = [] := rfl
@[simp] theorem after_nil : after ([] : Ctx α) = [] := rfl
@[simp] theorem before_cons (f : Frame α) (ctx : Ctx α) :
    before (f :: ctx) = before ctx ++ f.before := rfl
@[simp] theorem after_cons (f : Frame α) (ctx : Ctx α) :
    after (f :: ctx) = f.after ++ after ctx := rfl

theorem plug_append (c₁ c₂ : Ctx α) (t : Tree α) : plug (c₁ ++ c₂) t = plug c₂ (plug c₁ t) := by
  induction c₁ generalizing t with
  | nil => rfl
  | cons f c₁ ih => simp [ih]

theorem before_append (c₁ c₂ : Ctx α) : before (c₁ ++ c₂) = before c₂ ++ before c₁ := by
  induction c₁ with
  | nil => simp
  | cons f c₁ ih => simp [ih]

theorem after_append (c₁ c₂ : Ctx α) : after (c₁ ++ c₂) = after c₁ ++ after c₂ := by
  induction c₁ with
  | nil => simp
  | cons f c₁ ih => simp [ih]

theorem inorder_plug (ctx : Ctx α) (t : Tree α) :
    (plug ctx t).inorder = before ctx ++ t.inorder ++ after ctx := by
  induction ctx generalizing t with
  | nil => simp
  | cons f ctx ih => simp [ih, Frame.inorder_fill]

/-- Only the labels of the focus matter for the labels of the whole. -/
theorem inorder_plug_congr (ctx : Ctx α) {t u : Tree α} (h : t.inorder = u.inorder) :
    (plug ctx t).inorder = (plug ctx u).inorder := by
  rw [inorder_plug, inorder_plug, h]

theorem plug_ne_nil (ctx : Ctx α) {t : Tree α} (h : t ≠ .nil) : plug ctx t ≠ .nil := by
  induction ctx generalizing t with
  | nil => exact h
  | cons f ctx ih => exact ih (by simp [Frame.fill])

/-- Every frame of a context holds a label. -/
theorem length_le_inorder_plug (ctx : Ctx α) (t : Tree α) :
    ctx.length ≤ (plug ctx t).inorder.length := by
  induction ctx generalizing t with
  | nil => simp
  | cons f ctx ih =>
      obtain ⟨s, c, a, u⟩ := f
      have hlen : (plug ctx (Frame.fill ⟨s, c, a, u⟩ t)).inorder.length =
          (before ctx).length + (u.inorder.length + 1 + t.inorder.length) + (after ctx).length := by
        rw [inorder_plug]
        cases s <;> simp [Frame.fill, Tree.mk] <;> omega
      have := ih .nil
      rw [inorder_plug] at this
      simp only [Tree.inorder_nil, List.append_nil, List.length_append] at this
      rw [List.length_cons, plug_cons, hlen]
      omega

/-- Every label of a tree is the root of a focus. -/
theorem exists_focus {t : Tree α} {a : α} (h : a ∈ t.inorder) :
    ∃ (ctx : Ctx α) (c : Color) (l r : Tree α), t = plug ctx (.node c l a r) := by
  induction t with
  | nil => simp at h
  | node c l b r ihl ihr =>
      simp only [Tree.inorder_node, List.mem_append, List.mem_cons] at h
      rcases h with h | rfl | h
      · obtain ⟨ctx, c', l', r', e⟩ := ihl h
        exact ⟨ctx ++ [⟨.left, c, b, r⟩], c', l', r', by rw [plug_append, ← e]; rfl⟩
      · exact ⟨[], c, l, r, rfl⟩
      · obtain ⟨ctx, c', l', r', e⟩ := ihr h
        exact ⟨ctx ++ [⟨.right, c, b, l⟩], c', l', r', by rw [plug_append, ← e]; rfl⟩

/-- The context accepts a tree of black height `n`: its siblings are balanced and every red
frame hangs under a black one. -/
def CtxRB : Ctx α → ℕ → Prop
  | [], _ => True
  | f :: ctx, n =>
      f.sib.RB n ∧
        match f.color with
        | .red => f.sib.color = .black ∧ (∃ g rest, ctx = g :: rest ∧ g.color = .black) ∧ CtxRB ctx n
        | .black => CtxRB ctx (n + 1)

theorem CtxRB.tail {f : Frame α} {ctx : Ctx α} {n : ℕ} (h : CtxRB (f :: ctx) n) :
    ∃ k, CtxRB ctx k := by
  obtain ⟨s, c, a, u⟩ := f
  cases c with
  | red => exact ⟨n, h.2.2.2⟩
  | black => exact ⟨n + 1, h.2⟩

/-- Balance does not depend on the labels. -/
theorem CtxRB.relabel {c₁ ctx : Ctx α} {s : Side} {c : Color} {a b : α} {u : Tree α} {n : ℕ}
    (h : CtxRB (c₁ ++ ⟨s, c, a, u⟩ :: ctx) n) : CtxRB (c₁ ++ ⟨s, c, b, u⟩ :: ctx) n := by
  induction c₁ generalizing n with
  | nil => exact h
  | cons f c₁ ih =>
      obtain ⟨s', c', x, v⟩ := f
      cases c' with
      | black => exact ⟨h.1, ih h.2⟩
      | red =>
          obtain ⟨h1, h2, ⟨g, rest, e, hg⟩, h4⟩ := h
          refine ⟨h1, h2, ?_, ih h4⟩
          cases c₁ with
          | nil =>
              obtain ⟨rfl, _⟩ := List.cons.inj e
              exact ⟨_, _, rfl, hg⟩
          | cons f' c₁ =>
              obtain ⟨rfl, _⟩ := List.cons.inj e
              exact ⟨_, _, rfl, hg⟩

/-- A black focus, or any focus under a black frame. -/
def Fits (ctx : Ctx α) (t : Tree α) : Prop :=
  t.color = .black ∨ ∃ g rest, ctx = g :: rest ∧ g.color = .black

theorem fill_rb {f : Frame α} {ctx : Ctx α} {n : ℕ} {t : Tree α} (h : CtxRB (f :: ctx) n)
    (ht : t.RB n) (hf : Fits (f :: ctx) t) :
    ∃ k, (f.fill t).RB k ∧ CtxRB ctx k ∧ Fits ctx (f.fill t) := by
  obtain ⟨s, c, a, u⟩ := f
  simp only [CtxRB] at h
  cases c with
  | red =>
      obtain ⟨hu, hc, hg, hctx⟩ := h
      have htc : t.color = .black := by
        rcases hf with hf | ⟨g, rest, e, hg'⟩
        · exact hf
        · obtain ⟨rfl, _⟩ := List.cons.inj e
          cases hg'
      exact ⟨n, Tree.rb_mk_red.mpr ⟨htc, hc, ht, hu⟩, hctx, Or.inr hg⟩
  | black =>
      exact ⟨n + 1, ht.mk_black h.1, h.2, Or.inl (by simp)⟩

theorem plug_rb {ctx : Ctx α} {n : ℕ} {t : Tree α} (h : CtxRB ctx n) (ht : t.RB n)
    (hf : Fits ctx t) : (∃ k, (plug ctx t).RB k) ∧ (plug ctx t).color = .black := by
  induction ctx generalizing n t with
  | nil =>
      refine ⟨⟨n, ht⟩, ?_⟩
      rcases hf with hf | ⟨g, rest, e, _⟩
      · exact hf
      · cases e
  | cons f ctx ih =>
      obtain ⟨k, h1, h2, h3⟩ := fill_rb h ht hf
      exact ih h2 h1 h3

/-- A balanced tree with black root seen from inside: the context and the focus. -/
theorem rb_of_plug {ctx : Ctx α} {n : ℕ} {t : Tree α} (h : (plug ctx t).RB n)
    (hc : (plug ctx t).color = .black) : ∃ k, CtxRB ctx k ∧ t.RB k ∧ Fits ctx t := by
  induction ctx generalizing t with
  | nil => exact ⟨n, trivial, h, Or.inl hc⟩
  | cons f ctx ih =>
      obtain ⟨k, hctx, ht, hf⟩ := ih h hc
      obtain ⟨s, c, a, u⟩ := f
      cases c with
      | red =>
          obtain ⟨h1, h2, h3, h4⟩ := Tree.rb_mk_red.mp ht
          refine ⟨k, ⟨h4, h2, ?_, hctx⟩, h3, Or.inl h1⟩
          rcases hf with hf | hf
          · simp [Frame.fill] at hf
          · exact hf
      | black =>
          obtain ⟨j, rfl, h3, h4⟩ := Tree.rb_mk_black.1 ht
          exact ⟨j, ⟨h4, hctx⟩, h3, Or.inr ⟨_, _, rfl, rfl⟩⟩

/-! ### The insertion loop -/

/-- The double rotation of the insertion loop: the red focus under the red frame `f` under the
black frame `g`, with a black uncle. -/
def insRotate (f g : Frame α) (t : Tree α) : Tree α :=
  if f.side = g.side then
    .mk g.side .black t f.addr (.mk g.side .red f.sib g.addr g.sib)
  else
    match t with
    | .nil => .nil
    | .node c l a r =>
        let t := Tree.node c l a r
        .mk g.side .black (.mk g.side .red f.sib f.addr (t.child g.side)) a
          (.mk g.side .red (t.child g.side.opp) g.addr g.sib)

/-- The insertion loop on a red focus. -/
def insFix : Ctx α → Tree α → Tree α
  | [], t => t.setColor .black
  | [f], t => (f.fill t).setColor .black
  | f :: g :: ctx, t =>
      if f.color = .black then (plug (f :: g :: ctx) t).setColor .black
      else if g.sib.color = .red then
        insFix ctx (.mk g.side .red ((f.fill t).setColor .black) g.addr (g.sib.setColor .black))
      else (plug ctx (insRotate f g t)).setColor .black

theorem insRotate_rb {f g : Frame α} {ctx : Ctx α} {n : ℕ} {t : Tree α}
    (h : CtxRB (f :: g :: ctx) n) (hf : f.color = .red) (hu : g.sib.color = .black)
    (ht : t.RB n) (hc : t.color = .red) :
    (insRotate f g t).RB (n + 1) ∧ (insRotate f g t).color = .black ∧ CtxRB ctx (n + 1) := by
  obtain ⟨s, c, a, u⟩ := f
  obtain ⟨s', c', a', u'⟩ := g
  obtain rfl : c = .red := hf
  obtain ⟨hsib, hsibc, ⟨g', rest, e, hg'⟩, hsib', hctx⟩ := h
  obtain ⟨rfl, rfl⟩ := List.cons.inj e
  obtain rfl : c' = .black := hg'
  simp only at hsib hsibc hu hsib' hctx
  unfold insRotate
  split_ifs with hs
  · exact ⟨ht.mk_black (Tree.rb_mk_red.mpr ⟨hsibc, hu, hsib, hsib'⟩), by simp, hctx⟩
  · obtain ⟨x, e⟩ := Tree.exists_mk s' (Tree.ne_nil_of_red hc)
    cases t with
    | nil => cases hc
    | node ct l y r =>
        obtain rfl : ct = .red := hc
        rw [Tree.color_node] at e
        rw [e] at ht
        obtain ⟨h1, h2, h3, h4⟩ := Tree.rb_mk_red.mp ht
        exact ⟨Tree.RB.mk_black (Tree.rb_mk_red.mpr ⟨hsibc, h1, hsib, h3⟩)
          (Tree.rb_mk_red.mpr ⟨h2, hu, h4, hsib'⟩), by simp, hctx⟩

/-- **The insertion loop restores balance.** -/
theorem insFix_rb (ctx : Ctx α) (t : Tree α) {n : ℕ} (h : CtxRB ctx n) (ht : t.RB n)
    (hc : t.color = .red) :
    (∃ k, (insFix ctx t).RB k) ∧ (insFix ctx t).color = .black := by
  fun_induction insFix ctx t generalizing n with
  | case1 t =>
      exact ⟨⟨n + 1, ht.setColor_black hc⟩, by simp⟩
  | case2 f t =>
      obtain ⟨s, c, a, u⟩ := f
      cases c with
      | red =>
          obtain ⟨_, _, ⟨g, rest, e, _⟩, _⟩ := h
          cases e
      | black => exact ⟨⟨n + 1, by simpa [Frame.fill] using ht.mk_black h.1⟩, by simp [Frame.fill]⟩
  | case3 f g ctx t hf =>
      obtain ⟨hk, hb⟩ := plug_rb h ht (Or.inr ⟨f, _, rfl, hf⟩)
      rw [Tree.setColor_self hb]
      exact ⟨hk, hb⟩
  | case4 f g ctx t hf hg ih =>
      obtain ⟨s, c, a, u⟩ := f
      obtain ⟨s', c', a', u'⟩ := g
      have hc' : c = .red := by cases c <;> simp_all
      subst hc'
      obtain ⟨hsib, hsibc, ⟨g', rest, e, hg'⟩, hsib', hctx⟩ := h
      obtain ⟨rfl, rfl⟩ := List.cons.inj e
      obtain rfl : c' = .black := hg'
      refine ih (n := n + 1) hctx (Tree.rb_mk_red.mpr ⟨by simp, by simp, ?_, ?_⟩) (by simp)
      · simpa [Frame.fill] using ht.mk_black hsib
      · exact Tree.RB.setColor_black hg hsib'
  | case5 f g ctx t hf hg =>
      have hf' : f.color = .red := by
        cases e : f.color with
        | red => rfl
        | black => exact absurd e hf
      obtain ⟨h1, h2, h3⟩ := insRotate_rb h hf' (Tree.color_eq_black_of_ne hg) ht hc
      obtain ⟨hk, hb⟩ := plug_rb h3 h1 (Or.inl h2)
      rw [Tree.setColor_self hb]
      exact ⟨hk, hb⟩

/-! ### The removal loop -/

/-- One level of the removal loop, with a black sibling: the tree that takes the place of the
frame, and whether the missing black node was found. -/
def delStep (f : Frame α) (t : Tree α) : Tree α × Bool :=
  match f.sib with
  | .nil => (f.fill t, false)
  | .node c l w r =>
      let sib := Tree.node c l w r
      let near := sib.child f.side
      let far := sib.child f.side.opp
      if near.color = .black ∧ far.color = .black then
        (.mk f.side f.color t f.addr (sib.setColor .red), false)
      else if far.color = .black then
        match near with
        | .nil => (f.fill t, false)
        | .node cn ln n rn =>
            let near := Tree.node cn ln n rn
            (.mk f.side f.color (.mk f.side .black t f.addr (near.child f.side)) n
              (.mk f.side .black (near.child f.side.opp) w far), true)
      else
        (.mk f.side f.color (.mk f.side .black t f.addr near) w (far.setColor .black), true)

/-- The removal loop: every path through the focus lacks one black node. -/
def delFix : Ctx α → Tree α → Tree α
  | [], t => t.setColor .black
  | f :: ctx, t =>
      if t.color = .red then plug (f :: ctx) (t.setColor .black)
      else
        match f.sib with
        | .nil => delFix ctx (f.fill t)
        | .node .red l w r =>
            match delStep ⟨f.side, .red, f.addr, (Tree.node .red l w r).child f.side⟩ t with
            | (u, true) => plug (⟨f.side, .black, w, (Tree.node .red l w r).child f.side.opp⟩ :: ctx) u
            | (u, false) =>
                plug (⟨f.side, .black, w, (Tree.node .red l w r).child f.side.opp⟩ :: ctx)
                  (u.setColor .black)
        | .node .black _ _ _ =>
            match delStep f t with
            | (u, true) => plug ctx u
            | (u, false) => delFix ctx u

section

variable {s : Side} {c cw : Color} {x w : α} {near far t : Tree α}

theorem delStep_black (hn : near.color = .black) (hf : far.color = .black) :
    delStep ⟨s, c, x, .mk s cw near w far⟩ t = (.mk s c t x (.mk s .red near w far), false) := by
  cases s <;> simp [delStep, Tree.mk, Tree.child, Side.opp, hn, hf]

theorem delStep_near {cn : Color} {n₁ n₂ : Tree α} {y : α} (hn : cn ≠ .black)
    (hf : far.color = .black) :
    delStep ⟨s, c, x, .mk s cw (.mk s cn n₁ y n₂) w far⟩ t =
      (.mk s c (.mk s .black t x n₁) y (.mk s .black n₂ w far), true) := by
  cases s <;> simp [delStep, Tree.mk, Tree.child, Side.opp, hn, hf]

theorem delStep_far (hf : far.color ≠ .black) :
    delStep ⟨s, c, x, .mk s cw near w far⟩ t =
      (.mk s c (.mk s .black t x near) w (far.setColor .black), true) := by
  cases s <;> simp [delStep, Tree.mk, Tree.child, Side.opp, hf]

end

/-- A focus that lacks one black node: a balanced black tree one level short, or a red root
that only needs repainting. -/
def Short (n : ℕ) (t : Tree α) : Prop :=
  (t.color = .black ∧ t.RB n) ∨ (t.color = .red ∧ (t.setColor .black).RB (n + 1))

theorem delStep_rb {f : Frame α} {n : ℕ} {t : Tree α} (ht : t.RB n) (hsib : f.sib.RB (n + 1)) (hsc : f.sib.color = .black) :
    (delStep f t).1.color = f.color ∧
      ((delStep f t).2 = true →
        (f.color = .black → (delStep f t).1.RB (n + 2)) ∧
        (f.color = .red → (delStep f t).1.RB (n + 1))) ∧
      ((delStep f t).2 = false →
        (f.color = .black → (delStep f t).1.RB (n + 1)) ∧
        ((delStep f t).1.setColor .black).RB (n + 1)) := by
  obtain ⟨s, c, a, u⟩ := f
  have hu : u ≠ .nil := by
    rintro rfl
    simp [Tree.RB] at hsib
  obtain ⟨w, e⟩ := Tree.exists_mk s hu
  simp only at hsib hsc
  cases u with
  | nil => exact absurd rfl hu
  | node cw l w' r =>
      obtain rfl : cw = .black := hsc
      obtain rfl : w' = w := by cases s <;> simp [Tree.mk] at e <;> exact e.2.1
      rw [Tree.color_node] at e
      rw [e] at hsib
      obtain ⟨hn, hf⟩ := hsib.of_mk_black
      unfold delStep
      dsimp only
      split_ifs with h1 h2
      · refine ⟨by simp, by simp, fun _ => ?_⟩
        have hw : ((Tree.node .black l w' r).setColor .red).RB n := by
          rw [e, Tree.setColor_mk]
          exact Tree.rb_mk_red.mpr ⟨h1.1, h1.2, hn, hf⟩
        refine ⟨fun hc => ?_, ?_⟩
        · obtain rfl : c = .black := hc
          exact ht.mk_black hw
        · rw [Tree.setColor_mk]
          exact ht.mk_black hw
      · have hnc : (Tree.child s (Tree.node .black l w' r)).color = .red := by
          by_contra hb
          exact h1 ⟨Tree.color_eq_black_of_ne hb, h2⟩
        obtain ⟨x, e'⟩ := Tree.exists_mk s (Tree.ne_nil_of_red hnc)
        rw [hnc] at e'
        rw [e'] at hn
        obtain ⟨h3, h4, h5, h6⟩ := Tree.rb_mk_red.mp hn
        have hl := ht.mk_black (s := s) (a := a) h5
        have hr := h6.mk_black (s := s) (a := w') hf
        generalize hnear : Tree.child s (Tree.node .black l w' r) = near at *
        cases near with
        | nil => cases hnc
        | node cn ln y rn =>
            refine ⟨by simp, fun _ => ⟨fun hc => ?_, fun hc => ?_⟩, by simp⟩
            · obtain rfl : c = .black := hc
              exact hl.mk_black hr
            · obtain rfl : c = .red := hc
              exact Tree.rb_mk_red.mpr ⟨by simp, by simp, hl, hr⟩
      · have hfc : (Tree.child s.opp (Tree.node .black l w' r)).color = .red := by
          by_contra hb
          exact h2 (Tree.color_eq_black_of_ne hb)
        have hl := ht.mk_black (s := s) (a := a) hn
        have hr := hf.setColor_black hfc
        refine ⟨by simp, fun _ => ⟨fun hc => ?_, fun hc => ?_⟩, by simp⟩
        · obtain rfl : c = .black := hc
          exact hl.mk_black hr
        · obtain rfl : c = .red := hc
          exact Tree.rb_mk_red.mpr ⟨by simp, by simp, hl, hr⟩

theorem Short.of_ne_red {n : ℕ} {t : Tree α} (h : Short n t) (hr : ¬ t.color = .red) :
    t.color = .black ∧ t.RB n := by
  rcases h with h | ⟨hc, _⟩
  · exact h
  · exact absurd hc hr

/-- A red sibling hangs under a black frame and has black children of full height. -/
theorem redSibling_rb {f : Frame α} {ctx : Ctx α} {n : ℕ} {l r : Tree α} {w : α}
    (h : CtxRB (f :: ctx) (n + 1)) (hs : f.sib = .node .red l w r) :
    CtxRB ctx (n + 2) ∧ ((Tree.node .red l w r).child f.side.opp).RB (n + 1) ∧
      ((Tree.node .red l w r).child f.side).RB (n + 1) ∧
      ((Tree.node .red l w r).child f.side).color = .black := by
  obtain ⟨s, c, a, v⟩ := f
  obtain rfl : v = _ := hs
  cases c with
  | red => cases h.2.1
  | black =>
      obtain ⟨y, e⟩ := Tree.exists_mk s (t := Tree.node .red l w r) (by simp)
      have hsib := h.1
      simp only at hsib
      rw [e, Tree.color_node] at hsib
      obtain ⟨h1, _, h3, h4⟩ := Tree.rb_mk_red.mp hsib
      exact ⟨h.2, h4, h3, h1⟩

/-- A round that does not find the missing node leaves it one level up. -/
theorem delStep_short {f : Frame α} {ctx : Ctx α} {n : ℕ} {t u : Tree α}
    (h : CtxRB (f :: ctx) (n + 1)) (ht : Short n t) (hr : ¬ t.color = .red)
    (hs : f.sib.color = .black) (hu : delStep f t = (u, false)) :
    ∃ m, CtxRB ctx (m + 1) ∧ Short m u := by
  have hstep := delStep_rb (ht.of_ne_red hr).2 h.1 hs
  rw [hu] at hstep
  have hu' := hstep.2.2 rfl
  obtain ⟨s, c, a, v⟩ := f
  cases c with
  | red => exact ⟨n, h.2.2.2, Or.inr ⟨hstep.1, hu'.2⟩⟩
  | black => exact ⟨n + 1, h.2, Or.inl ⟨hstep.1, hu'.1 rfl⟩⟩

/-- **The removal loop restores balance.** -/
theorem delFix_rb (ctx : Ctx α) (t : Tree α) {n : ℕ} (h : CtxRB ctx (n + 1)) (ht : Short n t) :
    (∃ k, (delFix ctx t).RB k) ∧ (delFix ctx t).color = .black := by
  fun_induction delFix ctx t generalizing n with
  | case1 t =>
      rcases ht with ⟨hc, ht⟩ | ⟨hc, ht⟩
      · rw [Tree.setColor_self hc]
        exact ⟨⟨n, ht⟩, hc⟩
      · exact ⟨⟨n + 1, ht⟩, by simp⟩
  | case2 f ctx t hr =>
      rcases ht with ⟨hc, _⟩ | ⟨hc, ht⟩
      · rw [hc] at hr; cases hr
      · exact plug_rb h ht (Or.inl (by simp))
  | case3 f ctx t hr hs ih =>
      have := h.1
      rw [hs] at this
      simp [Tree.RB] at this
  | case4 f ctx t hr l w r hs u hu =>
      obtain ⟨hctx, hfar, hn, hsc⟩ := redSibling_rb h hs
      have hstep := delStep_rb (f := ⟨f.side, .red, f.addr, (Tree.node .red l w r).child f.side⟩)
        (ht.of_ne_red hr).2 hn hsc
      rw [hu] at hstep
      exact plug_rb (t := Frame.fill _ u) hctx (((hstep.2.1 rfl).2 rfl).mk_black hfar) (Or.inl (by simp))
  | case5 f ctx t hr l w r hs u hu =>
      obtain ⟨hctx, hfar, hn, hsc⟩ := redSibling_rb h hs
      have hstep := delStep_rb (f := ⟨f.side, .red, f.addr, (Tree.node .red l w r).child f.side⟩)
        (ht.of_ne_red hr).2 hn hsc
      rw [hu] at hstep
      exact plug_rb (t := Frame.fill _ _) hctx ((hstep.2.2 rfl).2.mk_black hfar) (Or.inl (by simp))
  | case6 f ctx t hr l w r hs u hu =>
      have hstep := delStep_rb (ht.of_ne_red hr).2 h.1 (by rw [hs]; rfl)
      rw [hu] at hstep
      obtain ⟨s, c, a, v⟩ := f
      cases c with
      | red => exact plug_rb h.2.2.2 ((hstep.2.1 rfl).2 rfl) (Or.inr h.2.2.1)
      | black => exact plug_rb h.2 ((hstep.2.1 rfl).1 rfl) (Or.inl hstep.1)
  | case7 f ctx t hr l w r hs u hu ih =>
      obtain ⟨m, hctx, hu'⟩ := delStep_short h ht hr (by rw [hs]; rfl) hu
      exact ih hctx hu'

end Ctx
end NeForce
