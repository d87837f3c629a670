import NeForce.RbLinked

/-! # The ends of the sequence

`endD s l d` is the first or the last label of `l`, or `d`.  The extremal node of a tree is found
by following the links on one side (`extremumLoop_eq`), and `Ends h hd l` says that the header
is red and points at both ends of `l`, or at itself when `l` is empty. -/

namespace NeForce.Rb

open Ctx RbNode

variable {V : Type} {h h' : Heap V} {hd : ℕ} {l l' : List ℕ} {ctx : Ctx ℕ} {t u : Tree ℕ} {s : Side}

/-- The first label for `left`, the last for `right`. -/
def endD (s : Side) (l : List ℕ) (d : ℕ) : ℕ :=
  match s with
  | .left => l.headD d
  | .right => l.getLastD d

/-- The labels of a context beyond the hole on side `s`. -/
def outer (s : Side) (ctx : Ctx ℕ) : List ℕ :=
  match s with
  | .left => before ctx
  | .right => after ctx

def Ends (h : Heap V) (hd : ℕ) (l : List ℕ) : Prop :=
  ∃ n, h.load hd = some n ∧ n.color = .red ∧ ∀ s, n.child s = endD s l hd

@[simp] theorem endD_nil (s : Side) (d : ℕ) : endD s [] d = d := by cases s <;> rfl

theorem endD_left_append (l m : List ℕ) (d : ℕ) :
    endD .left (l ++ m) d = endD .left l (endD .left m d) := by
  cases l <;> simp [endD]

theorem endD_right_append (l m : List ℕ) (d : ℕ) :
    endD .right (l ++ m) d = endD .right m (endD .right l d) := by
  induction m using List.reverseRecOn with
  | nil => simp [endD]
  | append_singleton m a ih => simp [endD, ← List.append_assoc]

theorem endD_mem (s : Side) {l : List ℕ} (hl : l ≠ []) (d : ℕ) : endD s l d ∈ l := by
  cases s with
  | left =>
      obtain ⟨a, l, rfl⟩ := List.exists_cons_of_ne_nil hl
      simp [endD]
  | right =>
      rw [endD, List.getLastD_eq_getLast?, List.getLast?_eq_getLast_of_ne_nil hl]
      exact List.getLast_mem hl

theorem endD_congr (s : Side) {l : List ℕ} (hl : l ≠ []) (d d' : ℕ) : endD s l d = endD s l d' := by
  cases s with
  | left =>
      obtain ⟨a, l, rfl⟩ := List.exists_cons_of_ne_nil hl
      rfl
  | right =>
      rw [endD, endD, List.getLastD_eq_getLast?, List.getLastD_eq_getLast?,
        List.getLast?_eq_getLast_of_ne_nil hl]
      rfl

theorem endD_mk {c : Color} {a d : ℕ} : endD s (Tree.mk s c t a u).inorder d = endD s t.inorder a := by
  cases s with
  | left => simp [Tree.mk, endD]
  | right =>
      have e : u.inorder ++ a :: t.inorder = (u.inorder ++ [a]) ++ t.inorder := by simp
      rw [Tree.mk, Tree.inorder_node, e, endD_right_append]
      simp [endD]

theorem endD_plug (d : ℕ) : endD s (plug ctx t).inorder d =
    endD s (outer s ctx) (endD s t.inorder (endD s (outer s.opp ctx) d)) := by
  rw [inorder_plug]
  cases s with
  | left => rw [endD_left_append, endD_left_append]; rfl
  | right => rw [endD_right_append, endD_right_append]; rfl

/-- A hole at one end of the sequence hangs on the neighbour of that end. -/
theorem endD_outer (ho : outer s ctx = []) : endD s (outer s.opp ctx) hd = holder hd ctx := by
  cases ctx with
  | nil => cases s <;> rfl
  | cons f ctx =>
      obtain ⟨s', c, a, v⟩ := f
      cases s with
      | left =>
          cases s' with
          | left => rfl
          | right => simp [outer, Frame.before] at ho
      | right =>
          cases s' with
          | left => simp [outer, Frame.after] at ho
          | right =>
              have e : outer Side.right.opp (⟨.right, c, a, v⟩ :: ctx) = (before ctx ++ v.inorder) ++ [a] := by
                simp [outer, Side.opp, Frame.before]
              rw [e, endD_right_append]
              rfl

/-- The extremal node of a tree has no child on that side. -/
theorem exists_end (s : Side) (ht : t ≠ .nil) :
    ∃ cy c y u, t = plug cy (.mk s c .nil y u) ∧ outer s cy = [] := by
  induction t with
  | nil => exact absurd rfl ht
  | node c l a r ihl ihr =>
      cases s with
      | left =>
          by_cases hl : l = .nil
          · subst hl
            exact ⟨[], c, a, r, rfl, rfl⟩
          · obtain ⟨cy, c', y, u, e, ho⟩ := ihl hl
            simp only [outer] at ho
            refine ⟨cy ++ [⟨.left, c, a, r⟩], c', y, u, ?_, ?_⟩
            · rw [plug_append, ← e]
              rfl
            · simp [outer, before_append, ho, Frame.before]
      | right =>
          by_cases hr : r = .nil
          · subst hr
            exact ⟨[], c, a, l, rfl, rfl⟩
          · obtain ⟨cy, c', y, u, e, ho⟩ := ihr hr
            simp only [outer] at ho
            refine ⟨cy ++ [⟨.right, c, a, l⟩], c', y, u, ?_, ?_⟩
            · rw [plug_append, ← e]
              rfl
            · simp [outer, after_append, ho, Frame.after]

theorem Linked.extremumLoop (s : Side) {p k : ℕ} (ht : Linked h p t) (h0 : h.load 0 = none)
    (hne : t ≠ .nil) (hk : t.inorder.length ≤ k) (d : ℕ) :
    extremumLoop s h k (ptr t) = some (endD s t.inorder d) := by
  induction k generalizing p t d with
  | zero =>
      have := List.length_pos_of_mem (ptr_mem hne)
      omega
  | succ k ih =>
      obtain ⟨a, e⟩ := Tree.exists_mk s hne
      rw [e] at ht hk ⊢
      obtain ⟨⟨v, hv⟩, ht', _⟩ := linked_mk.mp ht
      rw [Rb.extremumLoop, ptr_mk, getChild_eq _ hv, child_sided, endD_mk]
      simp only [Option.bind_eq_bind, Option.bind_some]
      by_cases hc : t.child s = .nil
      · simp [hc]
      · obtain ⟨n, hn, _⟩ := ht'.load_isSome _ (ptr_mem hc)
        have hne0 : ptr (t.child s) ≠ 0 := by
          intro he
          rw [he, h0] at hn
          cases hn
        rw [if_neg hne0]
        refine ih ht' hc ?_ a
        have : (Tree.mk s t.color (t.child s) a (t.child s.opp)).inorder.length =
            (t.child s).inorder.length + (t.child s.opp).inorder.length + 1 := by
          cases s <;> simp [Tree.mk] <;> omega
        omega

namespace Ends

theorem of_relink (he : Ends h hd l) {l' : List ℕ} (r : Relink h h' hd l') : Ends h' hd l := by
  obtain ⟨n, hn, hc, hends⟩ := he
  have := r.header
  rw [hn, Option.map_some, Option.map_eq_some_iff] at this
  obtain ⟨n', hn', e⟩ := this
  simp only [Prod.mk.injEq] at e
  refine ⟨n', hn', e.1.trans hc, fun s => ?_⟩
  cases s with
  | left => exact e.2.1.trans (hends .left)
  | right => exact e.2.2.trans (hends .right)

end Ends

namespace At

/-- The header may change its colour and its ends. -/
theorem of_header (hat : At h hd l ctx t) (e : ∀ a, a ≠ hd → h'.load a = h.load a)
    (ep : getParent h' hd = getParent h hd) : At h' hd l ctx t := by
  obtain ⟨hn, _, hhd, _⟩ := hat.nodup_parts
  have hne : ∀ a, a ∈ before ctx ∨ a ∈ after ctx → a ≠ hd := by
    rintro a ha rfl
    simp only [List.nodup_cons, List.mem_append] at hn
    exact hn.1 ha
  refine ⟨hat.tree.congr fun a ha => e a ?_, hat.above.congr (fun a ha => e a (hne a ha)) ep, hat.labels,
    hat.nodup, ?_⟩
  · rintro rfl
    exact hhd ha
  · obtain ⟨n, hn⟩ : ∃ n, h.load hd = some n := by
      have := hat.getParent_header
      rw [getParent, Option.map_eq_some_iff] at this
      exact this.imp fun _ h => h.1
    rw [e 0 (hat.ne_zero hn).symm, hat.null]

/-- Every node of the sequence is allocated and holds a value. -/
theorem load_isSome (hat : At h hd l ctx t) : ∀ a ∈ l, ∃ n, h.load a = some n ∧ n.data.isSome := by
  intro a ha
  rw [← hat.labels] at ha
  exact hat.toRoot.tree.load_isSome a ha

theorem length_le_walkBound (hat : At h hd l ctx t) (hok : h.Ok) : t.inorder.length ≤ walkBound h := by
  have h1 := hok.length_lt (List.nodup_cons.mp hat.nodup).2 fun a ha => by
    obtain ⟨n, hn, _⟩ := hat.load_isSome a ha
    simp [hn]
  have h2 : t.inorder.length ≤ l.length := by
    rw [← hat.labels, inorder_plug]
    simp only [List.length_append]
    omega
  unfold walkBound
  omega

/-- `rb_tree_node_base::minimum`, `maximum` -/
theorem extremum_eq (s : Side) (hat : At h hd l ctx t) (hok : h.Ok) (ht : t ≠ .nil) (d : ℕ) :
    extremum s h (ptr t) = some (endD s t.inorder d) := by
  rw [extremum, if_neg (hat.ptr_ne_zero ht)]
  exact hat.tree.extremumLoop s hat.null ht (hat.length_le_walkBound hok) d

end At

end NeForce.Rb
