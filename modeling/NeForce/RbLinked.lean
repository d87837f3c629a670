import NeForce.RbNode

/-! # Trees laid out in memory

`Linked h p t` says that the nodes of `t` are allocated, carry its colours and point to each
other as `t` says, the root pointing up to `p`; `CtxLinked h hd ctx q` says the same of the
nodes of a context whose hole holds the pointer `q`, the topmost one pointing up to the header
`hd`.  `At h hd l ctx t` puts the two together: the memory holds the tree `plug ctx t` below the
header, seen from the focus `t`; its nodes in order are `l`.

`Relink h h' hd l` is what a rebalancing step may do to memory: it touches only the header and
the nodes of `l`, keeps the data of every node and the colour and both ends of the header.  A
rotation and a recolouring are steps of this kind that act on the focus as they should
(`rotate_at`, `recolor_at`). -/

namespace NeForce.Rb

open Ctx RbNode

variable {V : Type}

/-- The pointer to the root of a tree. -/
def ptr : Tree ℕ → ℕ
  | .nil => 0
  | .node _ _ a _ => a

/-- The node a context hangs its hole on. -/
def holder (hd : ℕ) : Ctx ℕ → ℕ
  | [] => hd
  | f :: _ => f.addr

def Linked (h : Heap V) : ℕ → Tree ℕ → Prop
  | _, .nil => True
  | p, .node c l a r =>
      (∃ v, h.load a = some ⟨c, p, ptr l, ptr r, some v⟩) ∧ Linked h a l ∧ Linked h a r

def CtxLinked (h : Heap V) (hd : ℕ) : Ctx ℕ → ℕ → Prop
  | [], q => ∃ n, h.load hd = some n ∧ n.parent = q
  | f :: ctx, q =>
      (∃ v, h.load f.addr = some (sided f.side f.color (holder hd ctx) q (ptr f.sib) (some v))) ∧
        Linked h f.addr f.sib ∧ CtxLinked h hd ctx f.addr

structure At (h : Heap V) (hd : ℕ) (l : List ℕ) (ctx : Ctx ℕ) (t : Tree ℕ) : Prop where
  tree : Linked h (holder hd ctx) t
  above : CtxLinked h hd ctx (ptr t)
  labels : (plug ctx t).inorder = l
  nodup : (hd :: l).Nodup
  null : h.load 0 = none

/-- Only links and colours of the header and of the nodes of `l` have changed. -/
structure Within (h h' : Heap V) (hd : ℕ) (l : List ℕ) : Prop where
  frame : ∀ a, a ≠ hd → a ∉ l → h'.load a = h.load a
  data : ∀ a, (h'.load a).map (·.data) = (h.load a).map (·.data)
  next : h'.next = h.next

structure Relink (h h' : Heap V) (hd : ℕ) (l : List ℕ) : Prop extends Within h h' hd l where
  header : (h'.load hd).map (fun n => (n.color, n.left, n.right)) =
    (h.load hd).map (fun n => (n.color, n.left, n.right))

@[simp] theorem ptr_mk (s : Side) (c : Color) (t : Tree ℕ) (a : ℕ) (u : Tree ℕ) :
    ptr (.mk s c t a u) = a := by cases s <;> rfl

@[simp] theorem ptr_nil : ptr .nil = 0 := rfl

@[simp] theorem ptr_node (c : Color) (l : Tree ℕ) (a : ℕ) (r : Tree ℕ) : ptr (.node c l a r) = a := rfl

@[simp] theorem ptr_setColor (c : Color) (t : Tree ℕ) : ptr (t.setColor c) = ptr t := by
  cases t <;> rfl

@[simp] theorem ptr_fill (f : Frame ℕ) (t : Tree ℕ) : ptr (f.fill t) = f.addr := by
  simp [Frame.fill]

@[simp] theorem holder_nil (hd : ℕ) : holder hd [] = hd := rfl

@[simp] theorem holder_cons (hd : ℕ) (f : Frame ℕ) (ctx : Ctx ℕ) : holder hd (f :: ctx) = f.addr := rfl

theorem ptr_mem {t : Tree ℕ} (h : t ≠ .nil) : ptr t ∈ t.inorder := by
  cases t with
  | nil => exact absurd rfl h
  | node c l a r => simp [ptr]

theorem linked_mk {h : Heap V} {p : ℕ} {s : Side} {c : Color} {t u : Tree ℕ} {a : ℕ} :
    Linked h p (.mk s c t a u) ↔
      (∃ v, h.load a = some (sided s c p (ptr t) (ptr u) (some v))) ∧ Linked h a t ∧ Linked h a u := by
  cases s with
  | left => exact Iff.rfl
  | right => exact and_congr_right fun _ => and_comm

namespace Within

variable {h h₁ h₂ : Heap V} {hd : ℕ} {l l' : List ℕ}

theorem refl (h : Heap V) (hd : ℕ) (l : List ℕ) : Within h h hd l :=
  ⟨fun _ _ _ => rfl, fun _ => rfl, rfl⟩

theorem trans (r₁ : Within h h₁ hd l) (r₂ : Within h₁ h₂ hd l) : Within h h₂ hd l where
  frame a h1 h2 := (r₂.frame a h1 h2).trans (r₁.frame a h1 h2)
  data a := (r₂.data a).trans (r₁.data a)
  next := r₂.next.trans r₁.next

theorem mono (r : Within h h₁ hd l) (hl : ∀ a ∈ l, a ∈ l') : Within h h₁ hd l' where
  frame a h1 h2 := r.frame a h1 fun hm => h2 (hl a hm)
  data := r.data
  next := r.next

theorem isSome (r : Within h h₁ hd l) (a : ℕ) : (h₁.load a).isSome = (h.load a).isSome := by
  have := congrArg Option.isSome (r.data a)
  simpa using this

theorem ok (r : Within h h₁ hd l) (hok : h.Ok) : h₁.Ok := hok.of_isSome r.isSome r.next

/-- Changing the links or the colour of the header or of one node of `l`. -/
theorem of_set {a : ℕ} {n n' : RbNode V} (e : h.load a = some n) (ha : a ∈ hd :: l)
    (hdata : n'.data = n.data) : Within h (h.set a n') hd l where
  frame b h1 h2 := by
    rw [Mem.load_set, if_neg]
    rintro rfl
    exact (List.mem_cons.mp ha).elim h1 h2
  data b := by
    rw [Mem.load_set]
    split_ifs with hb
    · subst hb
      simp [e, hdata]
    · rfl
  next := rfl

end Within

namespace Relink

variable {h h₁ h₂ : Heap V} {hd : ℕ} {l l' : List ℕ}

theorem refl (h : Heap V) (hd : ℕ) (l : List ℕ) : Relink h h hd l := ⟨Within.refl h hd l, rfl⟩

theorem trans (r₁ : Relink h h₁ hd l) (r₂ : Relink h₁ h₂ hd l) : Relink h h₂ hd l :=
  ⟨r₁.toWithin.trans r₂.toWithin, r₂.header.trans r₁.header⟩

theorem mono (r : Relink h h₁ hd l) (hl : ∀ a ∈ l, a ∈ l') : Relink h h₁ hd l' :=
  ⟨r.toWithin.mono hl, r.header⟩

/-- Changing the links or the colour of one node of `l`. -/
theorem of_set {a : ℕ} {n n' : RbNode V} (e : h.load a = some n) (ha : a ∈ l) (hne : a ≠ hd)
    (hdata : n'.data = n.data) : Relink h (h.set a n') hd l :=
  ⟨.of_set e (List.mem_cons_of_mem _ ha) hdata, by rw [Mem.load_set, if_neg hne.symm]⟩

/-- Changing the root pointer of the header. -/
theorem of_setParent {n : RbNode V} (e : h.load hd = some n) (q : ℕ) :
    Relink h (h.set hd (n.setParent q)) hd l :=
  ⟨.of_set e (by simp) rfl, by simp [e, setParent]⟩

end Relink

theorem Linked.congr {h h' : Heap V} {p : ℕ} {t : Tree ℕ} (ht : Linked h p t)
    (e : ∀ a ∈ t.inorder, h'.load a = h.load a) : Linked h' p t := by
  induction t generalizing p with
  | nil => trivial
  | node c l a r ihl ihr =>
      obtain ⟨⟨v, hv⟩, hl, hr⟩ := ht
      refine ⟨⟨v, ?_⟩, ihl hl fun b hb => e b (by simp [hb]), ihr hr fun b hb => e b (by simp [hb])⟩
      rw [e a (by simp), hv]

/-- The nodes of the innermost frame lie before or after the hole. -/
theorem mem_frame {f : Frame ℕ} (ctx : Ctx ℕ) {a : ℕ} (ha : a = f.addr ∨ a ∈ f.sib.inorder) :
    a ∈ before (f :: ctx) ∨ a ∈ after (f :: ctx) := by
  obtain ⟨s, c, b, u⟩ := f
  cases s <;> simp [Frame.before, Frame.after] at ha ⊢ <;> grind

theorem CtxLinked.congr {h h' : Heap V} {hd : ℕ} {ctx : Ctx ℕ} {q : ℕ} (hc : CtxLinked h hd ctx q)
    (e : ∀ a, a ∈ before ctx ∨ a ∈ after ctx → h'.load a = h.load a)
    (ehd : getParent h' hd = getParent h hd) : CtxLinked h' hd ctx q := by
  induction ctx generalizing q with
  | nil =>
      obtain ⟨n, hn, hq⟩ := hc
      rw [getParent_eq hn, getParent, Option.map_eq_some_iff] at ehd
      obtain ⟨n', hn', hq'⟩ := ehd
      exact ⟨n', hn', hq'.trans hq⟩
  | cons f ctx ih =>
      obtain ⟨⟨v, hv⟩, hs, hc⟩ := hc
      have hf := fun a ha => e a (mem_frame ctx ha)
      refine ⟨⟨v, by rw [hf _ (Or.inl rfl), hv]⟩, hs.congr fun a ha => hf a (Or.inr ha), ih hc ?_⟩
      rintro a (ha | ha)
      · exact e a (Or.inl (by simp [ha]))
      · exact e a (Or.inr (by simp [ha]))

/-- Only the root of a tree knows where the tree hangs. -/
theorem Linked.reparent {h h' : Heap V} {p p' : ℕ} {t : Tree ℕ} (ht : Linked h p t)
    (hn : t.inorder.Nodup) (e : ∀ a ∈ t.inorder, a ≠ ptr t → h'.load a = h.load a)
    (er : t ≠ .nil → h'.load (ptr t) = (h.load (ptr t)).map (·.setParent p')) :
    Linked h' p' t := by
  cases t with
  | nil => trivial
  | node c l a r =>
      obtain ⟨⟨v, hv⟩, hl, hr⟩ := ht
      simp only [Tree.inorder_node, List.nodup_append, List.nodup_cons, List.mem_cons, ptr] at hn e er
      refine ⟨⟨v, by rw [er (by simp), hv]; rfl⟩, hl.congr fun b hb => e b (by simp [hb]) ?_,
        hr.congr fun b hb => e b (by simp [hb]) ?_⟩
      · exact fun hba => hn.2.2 b hb a (Or.inl rfl) hba
      · rintro rfl
        exact hn.2.1.1 hb

theorem Linked.load_isSome {h : Heap V} {p : ℕ} {t : Tree ℕ} (ht : Linked h p t) :
    ∀ a ∈ t.inorder, ∃ n, h.load a = some n ∧ n.data.isSome := by
  induction t generalizing p with
  | nil => simp
  | node c l b r ihl ihr =>
      obtain ⟨⟨v, hv⟩, hl, hr⟩ := ht
      intro a ha
      simp only [Tree.inorder_node, List.mem_append, List.mem_cons] at ha
      rcases ha with ha | rfl | ha
      · exact ihl hl a ha
      · exact ⟨_, hv, rfl⟩
      · exact ihr hr a ha

/-! ### Part of a path -/

/-- The nodes of a context whose topmost one points up to `p`. -/
def Hung (h : Heap V) (p : ℕ) : Ctx ℕ → ℕ → Prop
  | [], _ => True
  | f :: ctx, q =>
      (∃ v, h.load f.addr = some (sided f.side f.color (holder p ctx) q (ptr f.sib) (some v))) ∧
        Linked h f.addr f.sib ∧ Hung h p ctx f.addr

theorem linked_plug {h : Heap V} {p : ℕ} {ctx : Ctx ℕ} {t : Tree ℕ} :
    Linked h p (plug ctx t) ↔ Hung h p ctx (ptr t) ∧ Linked h (holder p ctx) t := by
  induction ctx generalizing t with
  | nil => simp [Hung]
  | cons f ctx ih =>
      rw [plug_cons, ih, ptr_fill, Frame.fill, linked_mk]
      simp only [Hung, holder_cons]
      grind

theorem Hung.congr {h h' : Heap V} {p q : ℕ} {ctx : Ctx ℕ} (hc : Hung h p ctx q)
    (e : ∀ a, a ∈ before ctx ∨ a ∈ after ctx → h'.load a = h.load a) : Hung h' p ctx q := by
  induction ctx generalizing q with
  | nil => trivial
  | cons f ctx ih =>
      obtain ⟨⟨v, hv⟩, hs, hc⟩ := hc
      have hf := fun a ha => e a (mem_frame ctx ha)
      refine ⟨⟨v, by rw [hf _ (Or.inl rfl), hv]⟩, hs.congr fun a ha => hf a (Or.inr ha), ih hc ?_⟩
      rintro a (ha | ha)
      · exact e a (Or.inl (by simp [ha]))
      · exact e a (Or.inr (by simp [ha]))

theorem ptr_plug_congr {ctx : Ctx ℕ} {t u : Tree ℕ} (hc : ctx ≠ []) :
    ptr (plug ctx t) = ptr (plug ctx u) := by
  induction ctx generalizing t u with
  | nil => exact absurd rfl hc
  | cons f ctx ih =>
      by_cases hn : ctx = []
      · subst hn
        simp
      · exact ih hn

/-! ### The focus -/

/-- Write the pointer held in the hole of a context into the node that holds it. -/
def hook (ctx : Ctx ℕ) (q : ℕ) (n : RbNode V) : RbNode V :=
  match ctx with
  | [] => n.setParent q
  | f :: _ => n.setChild f.side q

theorem CtxLinked.rehole {h h' : Heap V} {hd : ℕ} {ctx : Ctx ℕ} {q q' : ℕ}
    (hc : CtxLinked h hd ctx q) (hn : (hd :: (before ctx ++ after ctx)).Nodup)
    (e : ∀ a, a = hd ∨ a ∈ before ctx ∨ a ∈ after ctx → a ≠ holder hd ctx → h'.load a = h.load a)
    (er : h'.load (holder hd ctx) = (h.load (holder hd ctx)).map (hook ctx q')) :
    CtxLinked h' hd ctx q' := by
  cases ctx with
  | nil =>
      obtain ⟨n, hn, _⟩ := hc
      exact ⟨n.setParent q', by rw [← holder_nil hd, er, holder_nil, hn]; rfl, rfl⟩
  | cons f ctx =>
      obtain ⟨⟨v, hv⟩, hs, hc⟩ := hc
      obtain ⟨s, c, b, u⟩ := f
      simp only [holder_cons] at hv er e ⊢
      simp only [List.nodup_cons, before_cons, after_cons, List.mem_append] at hn
      have hb : b ≠ hd ∧ b ∉ before ctx ∧ b ∉ after ctx ∧ b ∉ u.inorder := by
        obtain ⟨h1, h2⟩ := hn
        cases s <;> simp only [Frame.before, Frame.after, List.append_nil, List.nil_append,
          List.nodup_append, List.nodup_cons, List.mem_append, List.mem_cons] at h1 h2 <;>
          grind
      refine ⟨⟨v, ?_⟩, hs.congr ?_, hc.congr ?_ ?_⟩
      · rw [er, hv]
        simp [hook]
      · intro a ha
        refine e a ?_ (by rintro rfl; exact hb.2.2.2 ha)
        cases s <;> simp only [before_cons, after_cons, Frame.before, Frame.after, List.mem_append,
          List.mem_cons] <;> grind
      · intro a ha
        refine e a ?_ ?_
        · simp only [before_cons, after_cons, List.mem_append]
          grind
        · rintro rfl
          grind
      · rw [getParent, getParent, e hd (Or.inl rfl) hb.1.symm]

namespace At

variable {h h' : Heap V} {hd : ℕ} {l : List ℕ} {ctx : Ctx ℕ} {t : Tree ℕ}

/-- Moving the focus one level up or down does not change what is said. -/
theorem cons_iff {f : Frame ℕ} : At h hd l (f :: ctx) t ↔ At h hd l ctx (f.fill t) := by
  have hf : f.fill t = .mk f.side f.color t f.addr f.sib := rfl
  constructor
  · rintro ⟨ht, ⟨hv, hs, hc⟩, hl, hn, h0⟩
    exact ⟨hf ▸ linked_mk.mpr ⟨hv, ht, hs⟩, by rwa [ptr_fill], hl, hn, h0⟩
  · rintro ⟨ht, hc, hl, hn, h0⟩
    obtain ⟨hv, ht, hs⟩ := linked_mk.mp (hf ▸ ht)
    exact ⟨ht, ⟨hv, hs, by rwa [ptr_fill] at hc⟩, hl, hn, h0⟩

theorem iff_plug (c₁ c₂ : Ctx ℕ) : At h hd l (c₁ ++ c₂) t ↔ At h hd l c₂ (plug c₁ t) := by
  induction c₁ generalizing t with
  | nil => rfl
  | cons f c₁ ih => rw [List.cons_append, cons_iff, ih, plug_cons]

/-- The same memory seen from the root. -/
theorem toRoot (hat : At h hd l ctx t) : At h hd l [] (plug ctx t) := by
  rwa [← List.append_nil ctx, iff_plug] at hat

/-- The nodes of the focus, of the context and the header are distinct. -/
theorem nodup_parts (hat : At h hd l ctx t) :
    (hd :: (before ctx ++ after ctx)).Nodup ∧ t.inorder.Nodup ∧ hd ∉ t.inorder ∧
      ∀ a ∈ t.inorder, a ∉ before ctx ∧ a ∉ after ctx := by
  have hn := hat.nodup
  rw [← hat.labels, inorder_plug] at hn
  simp only [List.nodup_cons, List.mem_append, List.nodup_append] at hn ⊢
  grind

theorem ne_zero (hat : At h hd l ctx t) {a : ℕ} {n : RbNode V} (e : h.load a = some n) : a ≠ 0 := by
  rintro rfl
  rw [hat.null] at e
  cases e

theorem zero_notMem (hat : At h hd l ctx t) : 0 ∉ t.inorder := by
  intro h0
  obtain ⟨n, hn, _⟩ := hat.tree.load_isSome 0 h0
  exact hat.ne_zero hn rfl

theorem ptr_ne_zero (hat : At h hd l ctx t) (ht : t ≠ .nil) : ptr t ≠ 0 := by
  intro h0
  exact hat.zero_notMem (h0 ▸ ptr_mem ht)

theorem load_ptr (hat : At h hd l ctx t) (ht : t ≠ .nil) :
    ∃ n, h.load (ptr t) = some n ∧ n.color = t.color ∧ n.parent = holder hd ctx := by
  cases t with
  | nil => exact absurd rfl ht
  | node c l a r =>
      obtain ⟨⟨v, hv⟩, _⟩ := hat.tree
      exact ⟨_, hv, rfl, rfl⟩

theorem isBlack_eq (hat : At h hd l ctx t) : isBlack h (ptr t) = some (t.color == .black) := by
  by_cases ht : t = .nil
  · subst ht
    simp [isBlack, ptr]
  · obtain ⟨n, hn, hc, _⟩ := hat.load_ptr ht
    rw [isBlack, if_neg (hat.ptr_ne_zero ht), getColor_eq hn, hc]
    rfl

theorem load_holder (hat : At h hd l ctx t) : ∃ n, h.load (holder hd ctx) = some n := by
  cases ctx with
  | nil =>
      obtain ⟨n, hn, _⟩ := hat.above
      exact ⟨n, hn⟩
  | cons f ctx =>
      obtain ⟨⟨v, hv⟩, _⟩ := hat.above
      exact ⟨_, hv⟩

/-- The root of the whole tree hangs below the header. -/
theorem getParent_header (hat : At h hd l ctx t) : getParent h hd = some (ptr (plug ctx t)) := by
  induction ctx generalizing t with
  | nil =>
      obtain ⟨n, hn, hp⟩ := hat.above
      rw [getParent_eq hn, hp, plug_nil]
  | cons f ctx ih => exact ih (cons_iff.mp hat)

/-- The focus is the root exactly when the context is empty. -/
theorem ptr_ne_root (hat : At h hd l ctx t) (hc : ctx ≠ []) : ptr t ≠ ptr (plug ctx t) := by
  obtain ⟨_, _, _, hdis⟩ := hat.nodup_parts
  have hmem : ∀ (ctx : Ctx ℕ) (t : Tree ℕ), ctx ≠ [] →
      ptr (plug ctx t) ∈ before ctx ∨ ptr (plug ctx t) ∈ after ctx := by
    intro ctx
    induction ctx with
    | nil => intro t hc; exact absurd rfl hc
    | cons f ctx ih =>
        intro t _
        by_cases hc : ctx = []
        · subst hc
          obtain ⟨s, c, a, u⟩ := f
          cases s <;> simp [Frame.before, Frame.after]
        · rcases ih (f.fill t) hc with h1 | h1
          · exact Or.inl (by simp [h1])
          · exact Or.inr (by simp [h1])
  by_cases ht : t = .nil
  · subst ht
    intro h0
    have hroot := hat.toRoot
    have hne : plug ctx .nil ≠ .nil := by
      intro hnil
      have := hmem ctx .nil hc
      have hlen := congrArg Tree.inorder hnil
      rw [inorder_plug] at hlen
      rcases this with h1 | h1
      · have := List.ne_nil_of_mem h1
        simp_all
      · have := List.ne_nil_of_mem h1
        simp_all
    exact hroot.ptr_ne_zero hne h0.symm
  · intro he
    have := hdis _ (ptr_mem ht)
    rw [he] at this
    rcases hmem ctx t hc with h1 | h1
    · exact this.1 h1
    · exact this.2 h1

/-- Replacing the whole focus. -/
theorem replace {u : Tree ℕ} {l' : List ℕ} (hat : At h hd l ctx t)
    (hu : Linked h' (holder hd ctx) u) (hl : (plug ctx u).inorder = l') (hn : (hd :: l').Nodup)
    (h0 : h'.load 0 = none)
    (e : ∀ a, a = hd ∨ a ∈ before ctx ∨ a ∈ after ctx → a ≠ holder hd ctx → h'.load a = h.load a)
    (er : h'.load (holder hd ctx) = (h.load (holder hd ctx)).map (hook ctx (ptr u))) :
    At h' hd l' ctx u :=
  ⟨hu, hat.above.rehole hat.nodup_parts.1 e er, hl, hn, h0⟩

/-- Painting the root of the focus. -/
theorem recolor (hat : At h hd l ctx t) (ht : t ≠ .nil) (c : Color) :
    ∃ h', h.update (ptr t) (·.setColor c) = some h' ∧ At h' hd l ctx (t.setColor c) ∧
      Relink h h' hd l := by
  obtain ⟨hn, htn, hhd, hdis⟩ := hat.nodup_parts
  cases t with
  | nil => exact absurd rfl ht
  | node c' tl a tr =>
      obtain ⟨⟨v, hv⟩, hl, hr⟩ := hat.tree
      have ha := hdis a (by simp)
      have hne : a ≠ hd := by
        rintro rfl
        simp at hhd
      refine ⟨_, Mem.update_eq hv _, ⟨?_, ?_, ?_, hat.nodup, ?_⟩, ?_⟩
      · simp only [Tree.inorder_node, List.nodup_append, List.nodup_cons, List.mem_cons] at htn
        refine ⟨⟨v, by simp [setColor]⟩, hl.congr ?_, hr.congr ?_⟩
        · intro b hb
          rw [Mem.load_set, if_neg]
          rintro rfl
          exact htn.2.2 b hb b (Or.inl rfl) rfl
        · intro b hb
          rw [Mem.load_set, if_neg]
          rintro rfl
          exact htn.2.1.1 hb
      · refine hat.above.congr ?_ ?_
        · intro b hb
          rw [Mem.load_set, if_neg]
          rintro rfl
          exact hb.elim ha.1 ha.2
        · rw [getParent, getParent, Mem.load_set, if_neg hne.symm]
      · exact (inorder_plug_congr ctx (Tree.inorder_setColor c _)).trans hat.labels
      · rw [Mem.load_set, if_neg (hat.ne_zero hv).symm]
        exact hat.null
      · exact Relink.of_set hv (by simp [← hat.labels, inorder_plug]) hne rfl

end At

/-! ### Rotations -/

theorem Linked.updateParent {h : Heap V} {p : ℕ} {t : Tree ℕ} (ht : Linked h p t) (p' : ℕ)
    (h0 : h.load 0 = none) (hn : t.inorder.Nodup) :
    ∃ h', setParentOf h (ptr t) p' = some h' ∧
      Linked h' p' t ∧ (∀ a, a ∉ t.inorder → h'.load a = h.load a) ∧
      ∀ hd l, hd ∉ t.inorder → (∀ a ∈ t.inorder, a ∈ l) → Relink h h' hd l := by
  by_cases htn : t = .nil
  · subst htn
    exact ⟨h, by simp [setParentOf, ptr], trivial, fun _ _ => rfl, fun hd l _ _ => Relink.refl h hd l⟩
  · obtain ⟨n, hload, _⟩ := ht.load_isSome _ (ptr_mem htn)
    have hne : ptr t ≠ 0 := by
      intro he
      rw [he, h0] at hload
      cases hload
    refine ⟨h.set (ptr t) (n.setParent p'), ?_, ?_, ?_, ?_⟩
    · rw [setParentOf, if_pos hne, Mem.update_eq hload]
    · refine ht.reparent hn (fun a _ ha => by rw [Mem.load_set, if_neg ha]) fun _ => ?_
      rw [Mem.load_set, if_pos rfl, hload]
      rfl
    · intro a ha
      rw [Mem.load_set, if_neg]
      rintro rfl
      exact ha (ptr_mem htn)
    · intro hd l hhd hl
      refine Relink.of_set hload (hl _ (ptr_mem htn)) ?_ rfl
      rintro rfl
      exact hhd (ptr_mem htn)

theorem hook_cons (f : Frame ℕ) (ctx : Ctx ℕ) (q : ℕ) (n : RbNode V) :
    hook (f :: ctx) q n = n.setChild f.side q := rfl

theorem Relink.of_hook {h : Heap V} {hd : ℕ} {ctx : Ctx ℕ} {l : List ℕ} {n : RbNode V}
    (e : h.load (holder hd ctx) = some n) (q : ℕ)
    (hl : ∀ a, a ∈ before ctx ∨ a ∈ after ctx → a ∈ l) (hhd : hd ∉ before ctx ∧ hd ∉ after ctx) :
    Relink h (h.set (holder hd ctx) (hook ctx q n)) hd l := by
  cases ctx with
  | nil => exact Relink.of_setParent e q
  | cons f ctx =>
      have hmem := mem_frame ctx (f := f) (Or.inl rfl)
      refine Relink.of_set e (hl _ hmem) ?_ (by rw [hook_cons, data_setChild])
      intro he
      rw [holder_cons] at he
      rw [he] at hmem
      exact hmem.elim hhd.1 hhd.2

/-- `replaceInParent` writes the new pointer into the hole. -/
theorem CtxLinked.replaceInParent {s : Side} {h : Heap V} {hd : ℕ} {ctx : Ctx ℕ} {old root : ℕ}
    (hc : CtxLinked h hd ctx old) (new : ℕ) (hr : getParent h hd = some root) (hroot : ctx ≠ [] → old ≠ root)
    (hsib : ∀ f rest, ctx = f :: rest → old ≠ ptr f.sib) :
    ∃ n, h.load (holder hd ctx) = some n ∧
      replaceInParent s h hd (holder hd ctx) old new = some (h.set (holder hd ctx) (hook ctx new n)) := by
  cases ctx with
  | nil =>
      obtain ⟨n, hn, hp⟩ := hc
      rw [getParent_eq hn, hp] at hr
      obtain rfl := Option.some.inj hr
      refine ⟨n, hn, ?_⟩
      rw [Rb.replaceInParent, getParent_eq hn, hp]
      simp [Mem.update_eq hn, hook]
  | cons f ctx =>
      obtain ⟨⟨v, hv⟩, _⟩ := hc
      refine ⟨_, hv, ?_⟩
      have hs := hsib f ctx rfl
      rw [Rb.replaceInParent, hr]
      simp only [Option.bind_eq_bind, Option.bind_some, if_neg (hroot (by simp)), holder_cons,
        getChild_eq _ hv, Mem.update_eq hv, hook]
      rcases Side.eq_or_opp f.side s with hs' | hs'
      · rw [hs', child_sided, if_pos rfl]
      · rw [hs', ← sided_opp, Side.opp_opp, child_sided, if_neg hs]

namespace At

variable {h : Heap V} {hd : ℕ} {l : List ℕ} {ctx : Ctx ℕ} {t : Tree ℕ} {f : Frame ℕ}

theorem ptr_ne_sib (hat : At h hd l ctx t) (ht : t ≠ .nil) :
    ∀ f rest, ctx = f :: rest → ptr t ≠ ptr f.sib := by
  rintro f rest rfl he
  by_cases hs : f.sib = .nil
  · rw [hs] at he
    exact hat.ptr_ne_zero ht he
  · have := hat.nodup_parts.2.2.2 _ (ptr_mem ht)
    rw [he] at this
    exact (mem_frame _ (Or.inr (ptr_mem hs))).elim this.1 this.2

theorem holder_notMem (hat : At h hd l ctx t) : holder hd ctx ∉ t.inorder := by
  obtain ⟨_, _, hhd, hdis⟩ := hat.nodup_parts
  cases ctx with
  | nil => exact hhd
  | cons f ctx =>
      intro hm
      have := hdis _ hm
      exact (mem_frame _ (Or.inl rfl)).elim this.1 this.2

/-- The focus moved to the sibling. -/
theorem sibling (hat : At h hd l (f :: ctx) t) :
    At h hd l (⟨f.side.opp, f.color, f.addr, t⟩ :: ctx) f.sib := by
  rw [cons_iff] at hat ⊢
  have e : Frame.fill ⟨f.side.opp, f.color, f.addr, t⟩ f.sib = f.fill t := Tree.mk_opp _ _ _ _ _
  rwa [e]

/-- The node that holds the focus. -/
theorem load_frame (hat : At h hd l (f :: ctx) t) :
    ∃ v, h.load f.addr = some (sided f.side f.color (holder hd ctx) (ptr t) (ptr f.sib) (some v)) :=
  hat.above.1

theorem getParent_ptr (hat : At h hd l ctx t) (ht : t ≠ .nil) :
    getParent h (ptr t) = some (holder hd ctx) := by
  obtain ⟨n, hn, _, hp⟩ := hat.load_ptr ht
  rw [getParent_eq hn, hp]

/-- Which side the focus hangs on, as the loops test it. -/
theorem side_eq (hat : At h hd l (f :: ctx) t) (ht : ptr t ≠ ptr f.sib) :
    ∃ q, getChild .left h f.addr = some q ∧ (if ptr t = q then Side.left else .right) = f.side := by
  obtain ⟨v, hv⟩ := hat.load_frame
  refine ⟨_, getChild_eq _ hv, ?_⟩
  cases hs : f.side with
  | left => simp [sided, child]
  | right => simp [sided, child, ht]

theorem recolor_frame (hat : At h hd l (f :: ctx) t) (c : Color) :
    ∃ h', h.update f.addr (·.setColor c) = some h' ∧
      At h' hd l (⟨f.side, c, f.addr, f.sib⟩ :: ctx) t ∧ Relink h h' hd l := by
  obtain ⟨h', e, hat', r⟩ := (cons_iff.mp hat).recolor (by simp [Frame.fill]) c
  rw [ptr_fill] at e
  refine ⟨h', e, cons_iff.mpr ?_, r⟩
  simpa [Frame.fill] using hat'

/-- A path is no longer than the number of addresses handed out. -/
theorem length_lt_walkBound (hat : At h hd l ctx t) (hok : h.Ok) : ctx.length + 1 ≤ walkBound h := by
  have hall : ∀ a ∈ l, (h.load a).isSome := by
    intro a ha
    rw [← hat.labels] at ha
    obtain ⟨n, hn, _⟩ := hat.toRoot.tree.load_isSome a ha
    simp [hn]
  have h1 := hok.length_lt (List.nodup_cons.mp hat.nodup).2 hall
  have h2 : ctx.length ≤ l.length := by
    rw [← hat.labels]
    exact length_le_inorder_plug ctx t
  unfold walkBound
  omega

/-- **A rotation** turns the focus and touches nothing else. -/
theorem rotate {s : Side} {c c' : Color} {x y : ℕ} {A B C : Tree ℕ}
    (hat : At h hd l ctx (.mk s c A x (.mk s c' B y C))) :
    ∃ h', rbTreeRotate s h x hd = some h' ∧ At h' hd l ctx (.mk s c' (.mk s c A x B) y C) ∧
      Relink h h' hd l := by
  set t : Tree ℕ := .mk s c A x (.mk s c' B y C) with ht
  obtain ⟨⟨v, hx⟩, hA, hyt⟩ := linked_mk.mp hat.tree
  obtain ⟨⟨w, hy⟩, hB, hC⟩ := linked_mk.mp hyt
  rw [ptr_mk] at hx
  obtain ⟨hctx, htn, hhd, hdis⟩ := hat.nodup_parts
  have hmem : ∀ a, a ∈ t.inorder ↔ a = x ∨ a ∈ A.inorder ∨ a = y ∨ a ∈ B.inorder ∨ a ∈ C.inorder := by
    intro a
    rw [ht, Tree.mem_inorder_mk, Tree.mem_inorder_mk]
  have hltree : ∀ a ∈ t.inorder, a ∈ l := by
    intro a ha
    rw [← hat.labels, inorder_plug]
    simp [ha]
  have hlctx : ∀ a, a ∈ before ctx ∨ a ∈ after ctx → a ∈ l := by
    intro a ha
    rw [← hat.labels, inorder_plug]
    simp only [List.mem_append]
    grind
  simp only [ht, Tree.nodup_inorder_mk, Tree.mem_inorder_mk] at htn
  obtain ⟨hxA, hxy, hAn, ⟨hyB, hyC, hBn, hCn, hBC⟩, hAy⟩ := htn
  push Not at hxy
  have hp := hat.holder_notMem
  have hroot := hat.getParent_header
  have hrootne := hat.ptr_ne_root
  have hsib := hat.ptr_ne_sib (by simp [ht])
  have habove := hat.above
  have h0 := hat.null
  have hx0 := hat.ne_zero hx
  have hy0 := hat.ne_zero hy
  set p := holder hd ctx with hpdef
  rw [hmem] at hp hhd
  push Not at hp hhd
  have hxm := hdis x (by simp [hmem])
  have hym := hdis y (by simp [hmem])
  have hptr : ptr t = x := by simp [ht]
  rw [hptr] at habove hsib hrootne
  -- `axis->right_ = y->left_`, then the parent of that subtree
  set h1 := h.set x (sided s c p (ptr A) (ptr B) (some v)) with hh1
  have hB1 : Linked h1 y B := hB.congr fun a ha => by
    rw [hh1, Mem.load_set, if_neg]
    rintro rfl
    exact hxy.2.1 ha
  have h10 : h1.load 0 = none := by rw [hh1, Mem.load_set, if_neg hx0.symm, h0]
  obtain ⟨h2, e2, hB2, f2, r2⟩ := hB1.updateParent x h10 hBn
  have h2x : h2.load x = some (sided s c p (ptr A) (ptr B) (some v)) := by
    rw [f2 x hxy.2.1, hh1, Mem.load_set, if_pos rfl]
  have h2y : h2.load y = some (sided s c' x (ptr B) (ptr C) (some w)) := by
    rw [f2 y hyB, hh1, Mem.load_set, if_neg hxy.1.symm, hy]
  set h3 := h2.set y (sided s c' p (ptr B) (ptr C) (some w)) with hh3
  have f3 : ∀ a, a ≠ x → a ≠ y → a ∉ B.inorder → h3.load a = h.load a := by
    intro a h1' h2' h3'
    rw [hh3, Mem.load_set, if_neg h2', f2 a h3', hh1, Mem.load_set, if_neg h1']
  have fctx : ∀ a, a = hd ∨ a ∈ before ctx ∨ a ∈ after ctx → h3.load a = h.load a := by
    intro a ha
    have ha' : a ∉ t.inorder := by
      rcases ha with rfl | ha | ha
      · rw [hmem]; grind
      · exact fun hm => (hdis a hm).1 ha
      · exact fun hm => (hdis a hm).2 ha
    rw [hmem] at ha'
    push Not at ha'
    exact f3 a ha'.1 ha'.2.2.1 ha'.2.2.2.1
  -- the pointer in the hole
  have hc3 : CtxLinked h3 hd ctx x :=
    habove.congr (fun a ha => fctx a (Or.inr ha)) (by rw [getParent, getParent, fctx hd (Or.inl rfl)])
  have hr3 : getParent h3 hd = some (ptr (plug ctx t)) := by
    rw [getParent, fctx hd (Or.inl rfl)]
    exact hroot
  obtain ⟨n, hn3, e4⟩ := hc3.replaceInParent (s := s) y hr3 hrootne hsib
  set h4 := h3.set p (hook ctx y n) with hh4
  have h4y : h4.load y = some (sided s c' p (ptr B) (ptr C) (some w)) := by
    rw [hh4, Mem.load_set, if_neg (Ne.symm hp.2.2.1), hh3, Mem.load_set, if_pos rfl]
  set h5 := h4.set y (sided s c' p x (ptr C) (some w)) with hh5
  have h5x : h5.load x = some (sided s c p (ptr A) (ptr B) (some v)) := by
    rw [hh5, Mem.load_set, if_neg hxy.1, hh4, Mem.load_set, if_neg (Ne.symm hp.1), hh3, Mem.load_set,
      if_neg hxy.1, h2x]
  set h6 := h5.set x (sided s c y (ptr A) (ptr B) (some v)) with hh6
  have f6 : ∀ a, a ≠ x → a ≠ y → a ≠ p → h6.load a = h3.load a := by
    intro a h1' h2' h3'
    rw [hh6, Mem.load_set, if_neg h1', hh5, Mem.load_set, if_neg h2', hh4, Mem.load_set, if_neg h3']
  have h6x : h6.load x = some (sided s c y (ptr A) (ptr B) (some v)) := by
    rw [hh6, Mem.load_set, if_pos rfl]
  have h6y : h6.load y = some (sided s c' p x (ptr C) (some w)) := by
    rw [hh6, Mem.load_set, if_neg hxy.1.symm, hh5, Mem.load_set, if_pos rfl]
  have hrun : rbTreeRotate s h x hd = some h6 := by
    rw [rbTreeRotate, getChild_eq _ hx, child_opp_sided]
    simp only [Option.bind_eq_bind, Option.bind_some, getChild_eq _ hy, child_sided,
      Mem.update_eq hx, setChild_opp_sided]
    rw [← hh1, e2]
    simp only [Option.bind_some, getParent_eq h2x, parent_sided, Mem.update_eq h2y, setParent_sided]
    rw [← hh3, e4]
    simp only [Option.bind_some, Mem.update_eq h4y, setChild_sided, ← hh5, Mem.update_eq h5x,
      setParent_sided, ← hh6]
  refine ⟨h6, hrun, ?_, ?_⟩
  · refine hat.replace (linked_mk.mpr ⟨⟨w, by simpa using h6y⟩, linked_mk.mpr ⟨⟨v, h6x⟩, ?_, ?_⟩, ?_⟩)
      (Eq.trans (inorder_plug_congr ctx ?_) hat.labels) hat.nodup ?_ ?_ ?_
    · refine hA.congr fun a ha => ?_
      have hAa := hAy a ha
      push Not at hAa
      rw [f6 a (by rintro rfl; exact hxA ha) hAa.1 (by rintro rfl; exact hp.2.1 ha),
        f3 a (by rintro rfl; exact hxA ha) hAa.1 hAa.2.1]
    · refine hB2.congr fun a ha => ?_
      rw [f6 a (by rintro rfl; exact hxy.2.1 ha) (by rintro rfl; exact hyB ha)
        (by rintro rfl; exact hp.2.2.2.1 ha), hh3, Mem.load_set, if_neg]
      rintro rfl
      exact hyB ha
    · refine hC.congr fun a ha => ?_
      rw [f6 a (by rintro rfl; exact hxy.2.2 ha) (by rintro rfl; exact hyC ha)
        (by rintro rfl; exact hp.2.2.2.2 ha),
        f3 a (by rintro rfl; exact hxy.2.2 ha) (by rintro rfl; exact hyC ha) fun hb => hBC a hb ha]
    · rw [ht]
      cases s <;> simp [Tree.mk]
    · have hp0 : p ≠ 0 := by
        obtain ⟨m, hm⟩ := hat.load_holder
        exact hat.ne_zero hm
      have h0B : 0 ∉ B.inorder := fun hb => hat.zero_notMem (by rw [hmem]; grind)
      rw [f6 0 hx0.symm hy0.symm hp0.symm, f3 0 hx0.symm hy0.symm h0B, h0]
    · intro a ha hap
      have hax : a ≠ x := by
        rintro rfl
        rcases ha with rfl | ha | ha
        · exact hhd.1 rfl
        · exact hxm.1 ha
        · exact hxm.2 ha
      have hay : a ≠ y := by
        rintro rfl
        rcases ha with rfl | ha | ha
        · exact hhd.2.2.1 rfl
        · exact hym.1 ha
        · exact hym.2 ha
      rw [f6 a hax hay hap, fctx a ha]
    · have h3p : h3.load p = h.load p := by
        refine f3 p hp.1 hp.2.2.1 hp.2.2.2.1
      rw [hh6, Mem.load_set, if_neg hp.1, hh5, Mem.load_set, if_neg hp.2.2.1, hh4, Mem.load_set,
        if_pos rfl, ← hpdef, ← h3p, hn3, ptr_mk]
      rfl
  · have hxl : x ∈ l := hltree x (by simp [hmem])
    have hyl : y ∈ l := hltree y (by simp [hmem])
    have hhd' : hd ∉ before ctx ∧ hd ∉ after ctx := by
      have := hctx
      simp only [List.nodup_cons, List.mem_append] at this
      grind
    have R1 : Relink h h1 hd l := Relink.of_set hx hxl hhd.1.symm (by simp)
    have R2 : Relink h1 h2 hd l := r2 hd l hhd.2.2.2.1 fun a ha => hltree a (by rw [hmem]; grind)
    have R3 : Relink h2 h3 hd l := Relink.of_set h2y hyl (Ne.symm hhd.2.2.1) (by simp)
    have R4 : Relink h3 h4 hd l := Relink.of_hook hn3 y hlctx hhd'
    have R5 : Relink h4 h5 hd l := Relink.of_set h4y hyl (Ne.symm hhd.2.2.1) (by simp)
    have R6 : Relink h5 h6 hd l := Relink.of_set h5x hxl hhd.1.symm (by simp)
    exact R1.trans (R2.trans (R3.trans (R4.trans (R5.trans R6))))

end At

end NeForce.Rb
