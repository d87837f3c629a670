import NeForce.CodepointTranscode

/-! # Blocks and single characters

Whatever the vector instructions take as a block is a sequence of well-formed characters, so that a chunk is what
`decode_utf8_char` reads, character by character, until the buffer is full or the text ends; and the chunks of a text are one
such pass over it. -/

namespace NeForce.Codepoint

open EncodingForm

/-- Calls of `decode_utf8_char` until the text ends, at most `capacity` of them. -/
def scalarPass : ℕ → Bytes → List ℕ × Bytes
  | 0, data => ([], data)
  | capacity + 1, data =>
    if data = [] then ([], data)
    else
      let d := decodeUtf8Char data
      let (outs, rest) := scalarPass capacity d.rest
      (d.cp :: outs, rest)

/-- The chunk decoder by what the blocks say of the bytes. -/
def utf8Chunk (simd : Simd) (capacity : ℕ) (data : Bytes) : List ℕ × Bytes :=
  decodeChunk (utf8Block simd) decodeUtf8Char capacity capacity data

variable {simd : Simd} {capacity fuel : ℕ} {data v rest : Bytes} {out : List ℕ}

@[simp] theorem scalarPass_nil (capacity : ℕ) : scalarPass capacity [] = ([], []) := by
  cases capacity <;> rfl

theorem decodeUtf8Char_suffix (h : data ≠ []) : (decodeUtf8Char data).rest <:+ data := by
  obtain ⟨cp, -, -, he⟩ | ⟨-, c, u, he, -⟩ := decodeUtf8Char_readsOne h
  · exact ⟨_, he.symm⟩
  · exact ⟨c :: u, he.symm⟩

theorem scalarPass_spec (capacity : ℕ) (data : Bytes) :
    (scalarPass capacity data).1.length ≤ capacity ∧ (scalarPass capacity data).2 <:+ data := by
  induction capacity generalizing data with
  | zero => exact ⟨Nat.le_refl 0, List.suffix_refl _⟩
  | succ n ih =>
      unfold scalarPass
      split
      · exact ⟨Nat.zero_le _, List.suffix_refl _⟩
      · next hne =>
        obtain ⟨h1, h2⟩ := ih (decodeUtf8Char data).rest
        exact ⟨Nat.succ_le_succ h1, h2.trans (decodeUtf8Char_suffix hne)⟩

/-- A block is read character by character. -/
theorem scalarPass_block (hv : Block utf8 v out) (hle : out.length ≤ capacity) (rest : Bytes) :
    scalarPass capacity (v ++ rest) =
      (out ++ (scalarPass (capacity - out.length) rest).1, (scalarPass (capacity - out.length) rest).2) := by
  obtain ⟨hs, rfl⟩ := hv
  induction out generalizing capacity with
  | nil => rfl
  | cons cp out ih =>
      obtain ⟨hc, hs⟩ := List.forall_mem_cons.mp hs
      match capacity, hle with
      | n + 1, hle =>
          have hd : decodeUtf8Char (utf8Encode cp ++ (utf8.encodeAll out ++ rest)) =
              ⟨true, cp, utf8.encodeAll out ++ rest⟩ :=
            decodeUtf8Char_encode hc _
          have hne : utf8Encode cp ++ (utf8.encodeAll out ++ rest) ≠ [] :=
            List.append_ne_nil_of_left_ne_nil (utf8.encode_ne_nil hc) _
          have hle' : out.length ≤ n := Nat.le_of_succ_le_succ hle
          have hi := ih hle' hs
          rw [encodeAll_cons, List.append_assoc]
          change scalarPass (n + 1) (utf8Encode cp ++ (utf8.encodeAll out ++ rest)) = _
          rw [scalarPass, if_neg hne, hd]
          dsimp only
          rw [hi, List.length_cons, Nat.succ_sub_succ_eq_sub]
          rfl

theorem utf8Block_length (h : utf8Block simd capacity data = some (out, rest)) : out.length ≤ capacity := by
  unfold utf8Block at h
  dsimp only at h
  split_ifs at h with h1 h2 h3 h4 h5
  · simp only [Bool.and_eq_true, decide_eq_true_eq] at h1
    obtain ⟨rfl, -⟩ := Prod.mk.inj (Option.some.inj h)
    rw [List.length_map, List.length_take]
    exact (Nat.min_le_left _ _).trans h1.1.2
  · simp only [Bool.and_eq_true, decide_eq_true_eq] at h2
    obtain ⟨rfl, -⟩ := Prod.mk.inj (Option.some.inj h)
    rw [List.length_map, List.length_take]
    exact (Nat.min_le_left _ _).trans h2.2
  · simp only [Bool.and_eq_true, decide_eq_true_eq] at h3
    obtain ⟨rfl, -⟩ := Prod.mk.inj (Option.some.inj h)
    exact (block_len2 8 (data.take 16) (by rw [List.length_take, Nat.min_eq_left h3.1.1.2]) h3.2).2.trans_le h3.1.2
  · simp only [Bool.and_eq_true, decide_eq_true_eq] at h4
    obtain ⟨rfl, -⟩ := Prod.mk.inj (Option.some.inj h)
    exact (block_len4 4 (data.take 16) (by rw [List.length_take, Nat.min_eq_left h4.1.1.2]) h4.2).2.trans_le h4.1.2
  · simp only [Bool.and_eq_true, decide_eq_true_eq] at h5
    obtain ⟨rfl, -⟩ := Prod.mk.inj (Option.some.inj h)
    have hl : (data.take 12).length = 3 * 4 := by
      have := h5.1.1.2
      rw [List.length_take]
      omega
    exact (block_len3 4 _ hl h5.2).2.trans_le h5.1.2

theorem decodeChunk_eq (hfuel : capacity ≤ fuel) (data : Bytes) :
    decodeChunk (utf8Block simd) decodeUtf8Char fuel capacity data = scalarPass capacity data := by
  induction fuel generalizing capacity data with
  | zero =>
      obtain rfl := Nat.le_zero.mp hfuel
      rfl
  | succ fuel ih =>
      unfold decodeChunk
      split
      · next h =>
        rcases h with rfl | rfl
        · rw [scalarPass_nil]
        · rfl
      · next h =>
        obtain ⟨hne, hcap⟩ := not_or.mp h
        cases hb : utf8Block simd capacity data with
        | none =>
            obtain ⟨n, rfl⟩ := Nat.exists_eq_succ_of_ne_zero hcap
            have hi := ih (show n ≤ fuel by omega) (decodeUtf8Char data).rest
            rw [Option.getD_none]
            dsimp only
            rw [List.length_singleton, Nat.succ_sub_one, hi, scalarPass, if_neg hne]
            rfl
        | some p =>
            obtain ⟨out, rest⟩ := p
            have hlen := utf8Block_length hb
            obtain ⟨ho, v, rfl, hv⟩ := utf8Block_spec hb
            have hpos := List.length_pos_of_ne_nil ho
            have hi := ih (show capacity - out.length ≤ fuel by omega) rest
            rw [Option.getD_some]
            dsimp only
            rw [hi, scalarPass_block hv hlen]

/-- A pass in two parts. -/
theorem scalarPass_add (m n : ℕ) (data : Bytes) : scalarPass (m + n) data =
    ((scalarPass m data).1 ++ (scalarPass n (scalarPass m data).2).1, (scalarPass n (scalarPass m data).2).2) := by
  induction m generalizing data with
  | zero => rw [Nat.zero_add]; rfl
  | succ m ih =>
      rw [Nat.succ_add, scalarPass, scalarPass]
      split
      · next h => rw [h, scalarPass_nil]; rfl
      · dsimp only
        rw [ih]
        rfl

/-- As many calls as there are bytes read all of them. -/
theorem scalarPass_rest {n : ℕ} (h : data.length ≤ n) : (scalarPass n data).2 = [] := by
  induction n generalizing data with
  | zero => exact List.length_eq_zero_iff.mp (Nat.le_zero.mp h)
  | succ n ih =>
      unfold scalarPass
      split
      · next hnil => exact hnil
      · next hne =>
        have hlt := ((decodes_utf8 ⟨false, false, false⟩).one hne).length_lt
        exact ih (show (decodeUtf8Char data).rest.length ≤ n by omega)

/-- More calls than that change nothing. -/
theorem scalarPass_more {n k : ℕ} (h : data.length ≤ n) : scalarPass (n + k) data = scalarPass n data := by
  rw [scalarPass_add, scalarPass_rest h, scalarPass_nil, List.append_nil]
  exact Prod.ext rfl (scalarPass_rest h).symm

theorem transcode_eq {β : Type} {appendChunk : List ℕ → List β} (hnil : appendChunk [] = [])
    (happ : ∀ a b, appendChunk (a ++ b) = appendChunk a ++ appendChunk b) (hfuel : data.length ≤ fuel) :
    transcode (utf8Chunk simd) appendChunk fuel data = appendChunk (scalarPass data.length data).1 := by
  induction fuel generalizing data with
  | zero =>
      obtain rfl := List.length_eq_zero_iff.mp (Nat.le_zero.mp hfuel)
      exact hnil.symm
  | succ fuel ih =>
      unfold transcode
      split
      · next h => rw [h, scalarPass_nil, hnil]
      · next hne =>
        have hchunk : utf8Chunk simd chunkSize data = scalarPass chunkSize data := decodeChunk_eq (Nat.le_refl _) data
        have hlt : (scalarPass chunkSize data).2.length < data.length := by
          rw [← hchunk]
          exact ((decodes_utf8 simd).chunk chunkSize chunkSize data).2 (by decide) (by decide) hne
        rw [hchunk]
        dsimp only
        rw [if_neg hlt.ne, ih (by omega), ← happ]
        -- One pass of more calls than there are bytes is cut behind the first chunk.
        have hall := scalarPass_add chunkSize data.length data
        obtain ⟨k, hk⟩ := Nat.exists_eq_add_of_lt hlt
        have hrest : scalarPass data.length (scalarPass chunkSize data).2 =
            scalarPass (scalarPass chunkSize data).2.length (scalarPass chunkSize data).2 := by
          conv_lhs => rw [hk]
          rw [Nat.add_assoc]
          exact scalarPass_more (Nat.le_refl _)
        rw [Nat.add_comm, scalarPass_more (Nat.le_refl _), hrest] at hall
        exact congrArg (fun p => appendChunk p.1) hall.symm

/-- A chunk is a pass of single characters, also where blocks are taken, and the transcoders write what one pass reads. -/
theorem utf8Chunk_spec (simd : Simd) (capacity : ℕ) (data : Bytes) (B : Form) :
    utf8Chunk simd capacity data = scalarPass capacity data ∧
      Form.transcode simd .utf8 B data = B.appendChunk (scalarPass data.length data).1 := by
  refine ⟨decodeChunk_eq (Nat.le_refl _) data, ?_⟩
  exact transcode_eq (by cases B <;> rfl) (Form.appendChunk_append B) (Nat.le_refl _)

end NeForce.Codepoint
