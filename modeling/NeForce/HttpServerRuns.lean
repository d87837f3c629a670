import NeForce.HttpServerFraming

/-! # Runs of `parse_request`

One call takes exactly the request at the front of the stream when the request is framed (`Request.Framed.answers`), and
by induction successive calls take the requests of a stream one after another. -/

namespace NeForce.HttpServer

open Search

/-! ### The condition -/

/-- A chunked body is found to be chunked; what is received up to its end stays within the limit of a body; and it ends
with its first terminator, or is empty and ends a piece. -/
def Request.ChunksFound (cfg : Config) (r : Request) (c : Conn) : Prop :=
  match r.body with
  | .chunked .. =>
    isChunked r.headers ∧
      (c.fresh.arrival r.head.length).pending.length - r.head.length ≤ cfg.maxBodySize ∧
      (∀ w ∈ (c.fresh.arrival r.text.length).waits, r.head.length ≤ w → w ≤ cfg.maxBodySize) ∧
      (firstAt terminator r.body.text = some (r.body.text.length - 7) ∨
        (c.fresh.arrival r.text.length).pending = r.text ∧ r.body.text = emptyChunks)
  | _ => True

structure Request.Framed (cfg : Config) (r : Request) (c : Conn) : Prop where
  host : r.HostFound
  chunks : r.ChunksFound cfg c

/-- What one call should do: return the request, wait for no byte behind it, and leave what follows it. -/
structure Exact (r : Request) (c : Conn) (out : HttpRequest × Bool × Conn) : Prop where
  request : out.1 = r.returned
  waits : ∀ w ∈ out.2.2.waits, w < r.text.length
  stream : c.stream = r.text ++ out.2.2.stream

/-! ### Heads -/

section

variable {cfg : Config} {r : Request} {c : Conn}

theorem eq_take_length {p s : Bytes} (h : p <+: s) : p = s.take p.length := (List.prefix_iff_eq_take.mp h)

/-- The head loop stops with the first buffer that holds the head. -/
theorem Request.Valid.headLoop (h : r.Valid) (hw : r.Within cfg) (hs : r.text <+: c.stream) (closed : String) :
    receiveLoop (headTest cfg) (fun _ => 8192) (fun _ _ => by decide) closed c = .ok (c.arrival r.head.length) := by
  obtain ⟨t, ht⟩ := hs
  have hstream : c.stream = r.head ++ (r.body.text ++ t) := by rw [← ht, text, List.append_assoc]
  have hlen : r.head.length ≤ c.stream.length := by rw [hstream, List.length_append]; omega
  have hfirst := h.firstAt_head (r.body.text ++ t)
  have h4 := r.four_le_head
  refine receiveLoop_arrival hlen ?_ fun p hp _ hlt _ => ?_
  · have hp := (c.arrival r.head.length).pending_le_stream
    rw [Conn.arrival_stream hlen, hstream] at hp
    obtain ⟨u, hu⟩ := List.prefix_of_prefix_length_le (List.prefix_append r.head _) hp (Conn.le_arrival hlen)
    have := h.firstAt_head u
    rw [hu] at this
    rw [headTest, this]
    exact if_pos rfl
  · have hnone : firstAt (crlf ++ crlf) p = none := by
      rw [eq_take_length hp, hstream]
      refine firstAt_take_eq_none hfirst (by decide) ?_
      change _ < _ + 4
      omega
    have := hw.head
    rw [headTest, hnone, if_neg (by simp), if_neg (by omega)]

/-- The text of the request and what follows it, in the buffer that holds `n` bytes at least. -/
theorem arrival_eq_append {n : ℕ} {a : Bytes} (ha : a <+: c.stream) (hn : n ≤ c.stream.length) (hle : a.length ≤ n) :
    ∃ u, (c.arrival n).pending = a ++ u := by
  have hp := (c.arrival n).pending_le_stream
  rw [Conn.arrival_stream hn] at hp
  obtain ⟨u, hu⟩ := List.prefix_of_prefix_length_le ha hp (hle.trans (Conn.le_arrival hn))
  exact ⟨u, hu.symm⟩

theorem Request.head_le_stream (hs : r.text <+: c.stream) : r.head <+: c.stream :=
  List.IsPrefix.trans (List.prefix_append _ _) hs

/-- The call up to the body. -/
theorem Request.Valid.parseRequest_eq (h : r.Valid) (hw : r.Within cfg) (hs : r.text <+: c.stream) :
    parseRequest cfg c = readBody cfg r.head.length (c.fresh.arrival r.head.length) := by
  have hs' : r.text <+: c.fresh.stream := hs
  have hlen := (Request.head_le_stream hs').length_le
  obtain ⟨u, hu⟩ := arrival_eq_append (Request.head_le_stream hs') hlen (Nat.le_refl _)
  have hfirst := h.firstAt_head u
  have h4 := r.four_le_head
  have hsub : r.head.length - 4 + 4 = r.head.length := by omega
  have hmax := hw.head
  rw [parseRequest, h.headLoop hw hs']
  simp only [bind, Except.bind]
  rw [hu, hfirst, Option.getD_some, hsub, if_neg (by omega)]

/-! ### Bodies of a given length -/

theorem isChunked_eq_false (h : ∀ f ∈ r.fields, ¬ f.Is "Transfer-Encoding") : isChunked r.headers = false := by
  rw [isChunked, headerCi_eq_nil h]
  decide

/-- The body of a request without chunks. -/
theorem readLength_eq (hmax : r.body.content.length ≤ cfg.maxBodySize) (hbody : r.body.text = r.body.content)
    (hs : r.text <+: c.stream) : ∃ c', readLength cfg r.head.length r.body.content.length c =
      .ok (r.body.content, r.text.length, c') ∧ c'.stream = c.stream ∧ r.text.length ≤ c'.pending.length ∧
      ∃ ws, c'.waits = c.waits ++ ws ∧ ∀ w ∈ ws, w < r.text.length := by
  have htext : r.head.length + r.body.content.length = r.text.length := by
    rw [Request.text, hbody, List.length_append]
  have hloop : ∃ c', receiveLoop (lengthTest (r.head.length + r.body.content.length))
      (fun p => min (r.head.length + r.body.content.length - p.length) 8192) (fun _ => lengthTest_size)
      "Connection closed while reading body" c = .ok c' ∧ c'.stream = c.stream ∧
      r.head.length + r.body.content.length ≤ c'.pending.length ∧
      ∃ ws, c'.waits = c.waits ++ ws ∧ ∀ w ∈ ws, w < r.head.length + r.body.content.length :=
    receiveLoop_spec (fun p _ hp => by rw [lengthTest, decide_eq_true hp])
      (fun p _ hp => by rw [lengthTest, decide_eq_false (by omega)]) (htext ▸ hs.length_le)
  obtain ⟨c', hc', hs', hle, hws⟩ := hloop
  rw [htext] at hle hws
  have hp := c'.pending_le_stream
  rw [hs'] at hp
  obtain ⟨u, hu⟩ := List.prefix_of_prefix_length_le hs hp hle
  refine ⟨c', ?_, hs', hle, hws⟩
  rw [readLength, if_neg (by omega), hc', ← htext]
  simp only [bind, Except.bind]
  rw [← hu, Request.text, List.append_assoc, List.drop_left' rfl, hbody, List.take_left' rfl]

/-! ### Chunked bodies -/

/-- A well-formed chunked body that begins with an empty one is empty. -/
theorem emptyChunks_of_starts {chunks : List Chunk} (hk : ∀ k ∈ chunks, k.Valid) {zeros e : Bytes}
    (hz : zeros ≠ [] ∧ ∀ c ∈ zeros, c = 0x30) (he : Extension e) {trailers : List Field} (ht : ∀ f ∈ trailers, f.Valid)
    (hp : emptyChunks <+: (Body.chunked chunks zeros e trailers).text) :
    (Body.chunked chunks zeros e trailers).text = emptyChunks := by
  obtain ⟨u, hu⟩ := hp
  cases chunks with
  | cons k chunks =>
      exfalso
      have hkv := hk k (by simp)
      obtain ⟨d, ds, hd⟩ := List.exists_cons_of_ne_nil hkv.digits_ne
      simp only [Body.text, List.flatMap_cons, Chunk.text, hd, emptyChunks, List.cons_append, List.nil_append, crlf,
        List.append_assoc, List.cons.injEq] at hu
      obtain ⟨rfl, hu⟩ := hu
      cases ds with
      | nil =>
          have := hkv.size
          have hpos := List.length_pos_iff.mpr hkv.data_ne
          rw [hd, show hexValue [0x30] = 0 from by decide] at this
          omega
      | cons d ds =>
          rw [List.cons_append, List.cons.injEq] at hu
          have := hkv.digits d (by simp [hd])
          rw [← hu.1] at this
          revert this
          decide
  | nil =>
      obtain ⟨z, zs, rfl⟩ := List.exists_cons_of_ne_nil hz.1
      simp only [Body.text, List.flatMap_nil, emptyChunks, List.cons_append, List.nil_append, crlf,
        List.append_assoc, List.cons.injEq] at hu ⊢
      obtain ⟨rfl, hu⟩ := hu
      cases zs with
      | cons z zs =>
          exfalso
          rw [List.cons_append, List.cons.injEq] at hu
          have := hz.2 z (by simp)
          rw [← hu.1] at this
          revert this
          decide
      | nil =>
          cases e with
          | cons x e =>
              exfalso
              rw [List.nil_append, List.cons_append, List.cons.injEq] at hu
              exact he.1.1 (by simp [← hu.1])
          | nil =>
              cases trailers with
              | nil => exact ⟨rfl, rfl⟩
              | cons f trailers =>
                  exfalso
                  obtain ⟨x, name, hx⟩ := List.exists_cons_of_ne_nil (ht f (by simp)).name.1
                  simp only [List.nil_append, List.flatMap_cons, Field.line, hx, List.cons_append, List.cons.injEq] at hu
                  have := (isSpace_ne ((ht f (by simp)).name.2 x (by simp [hx]))).1
                  exact this hu.2.2.1.symm

/-- The chunk loop stops with the first buffer that holds the body, at the end of the body. -/
theorem readChunked_eq {chunks : List Chunk} {zeros e : Bytes} {trailers : List Field}
    (hb : r.body = .chunked chunks zeros e trailers) (h : r.Valid) (hw : r.Within cfg)
    (hc : r.ChunksFound cfg c) (hs : r.text <+: c.stream) :
    readChunked cfg r.head.length (c.fresh.arrival r.head.length) =
      .ok (r.body.content, r.text.length, c.fresh.arrival r.text.length) := by
  have hbody := h.body
  rw [Request.ChunksFound, hb] at hc
  rw [Request.BodyValid, hb] at hbody
  obtain ⟨-, hfirst, hwaits, hend⟩ := hc
  obtain ⟨-, -, hk, hz, he, htr⟩ := hbody
  rw [← hb] at hend
  have hs0 : r.text <+: c.fresh.stream := hs
  have hlen := hs0.length_le
  have htext : r.text.length = r.head.length + r.body.text.length := by rw [Request.text, List.length_append]
  have hhead : r.head.length ≤ c.fresh.stream.length := by omega
  have hstream := Conn.arrival_stream hhead
  obtain ⟨u, hu⟩ := arrival_eq_append hs0 hlen (Nat.le_refl _)
  have hdrop : (c.fresh.arrival r.text.length).pending.drop r.head.length = r.body.text ++ u := by
    rw [hu, Request.text, List.append_assoc, List.drop_left' rfl]
  have harr := Conn.arrival_arrival (c := c.fresh) (m := r.head.length) (n := r.text.length) (by omega) hhead
  -- where the text of the end stands in the buffer
  have hfind : find (c.fresh.arrival r.text.length).pending terminator r.head.length =
        some (r.head.length + (r.body.text.length - 7)) ∧ 7 ≤ r.body.text.length ∨
      find (c.fresh.arrival r.text.length).pending terminator r.head.length = none ∧
        (c.fresh.arrival r.text.length).pending.drop r.head.length = emptyChunks ∧ r.body.text.length = 5 := by
    rw [find, hdrop]
    rcases hend with hend | ⟨hall, hempty⟩
    · refine .inl ⟨by rw [firstAt_append hend]; rfl, ?_⟩
      have := firstAt_add_le hend
      change _ + 7 ≤ _ at this
      omega
    · have hu0 : u = [] := by
        rw [hall] at hu
        exact List.self_eq_append_right.mp hu
      have hno : firstAt terminator emptyChunks = none := by decide
      rw [hu0, List.append_nil, hempty, hno]
      exact .inr ⟨rfl, rfl, by decide⟩
  have htest : chunkedTest cfg r.head.length (c.fresh.arrival r.text.length).pending = .ok true := by
    rw [chunkedTest]
    rcases hfind with ⟨hf, -⟩ | ⟨-, hd, -⟩
    · exact if_pos (.inl (by rw [hf]; rfl))
    · exact if_pos (.inr hd)
  have hloop : receiveLoop (chunkedTest cfg r.head.length) (fun _ => 8192) (fun _ _ => by decide)
      "Connection closed while reading chunked body" (c.fresh.arrival r.head.length) =
        .ok ((c.fresh.arrival r.head.length).arrival r.text.length) := by
    refine receiveLoop_arrival (by rw [hstream]; exact hlen) (by rw [harr]; exact htest) fun p hp hpre hlt hmem => ?_
    · rw [hstream] at hp
      rw [harr] at hmem
      have hge := (Conn.le_arrival hhead).trans hpre.length_le
      have hmax := hwaits _ hmem hge
      obtain ⟨t, ht⟩ := hs0
      have hpd : p.drop r.head.length = (r.body.text ++ t).take (p.length - r.head.length) := by
        conv_lhs => rw [eq_take_length hp, ← ht, Request.text, List.append_assoc]
        rw [List.drop_take, List.drop_left' rfl]
      have hnone : find p terminator r.head.length = none := by
        rw [find, hpd]
        rcases hend with hend | ⟨-, hempty⟩
        · rw [firstAt_take_eq_none (firstAt_append hend t) (by decide)]
          · rfl
          · have := firstAt_add_le hend
            change _ + 7 ≤ _ at this
            change _ < _ + 7
            omega
        · have : firstAt terminator ((r.body.text ++ t).take (p.length - r.head.length)) = none := by
            cases hf : firstAt terminator ((r.body.text ++ t).take (p.length - r.head.length)) with
            | none => rfl
            | some i =>
                have := firstAt_add_le hf
                rw [List.length_take] at this
                change _ + 7 ≤ _ at this
                have h5 : r.body.text.length = 5 := by rw [hempty]; rfl
                omega
          rw [this]
          rfl
      have hne : p.drop r.head.length ≠ emptyChunks := by
        intro hd
        have hl : (p.drop r.head.length).length = 5 := by rw [hd]; rfl
        rw [List.length_drop] at hl
        have hpre' : emptyChunks <+: r.body.text := by
          rw [← hd, hpd]
          refine List.prefix_of_prefix_length_le (List.take_prefix _ _) (List.prefix_append _ _) ?_
          rw [List.length_take]
          omega
        rw [hb] at hpre'
        have hempty := emptyChunks_of_starts hk hz he htr hpre'
        rw [← hb] at hempty
        have h5 : r.body.text.length = 5 := by rw [hempty]; rfl
        omega
      rw [chunkedTest, if_neg (by rw [hnone]; simpa using hne), if_neg (by omega)]
  rw [readChunked, if_neg (by omega), hloop, harr]
  simp only [bind, Except.bind]
  rw [hdrop, decodeChunkedBody_text h.body hb (by have := hw.text; omega)]
  rcases hfind with ⟨hf, h7⟩ | ⟨hf, hd, h5⟩
  · rw [hf]
    simp only
    rw [show r.head.length + (r.body.text.length - 7) + 7 = r.text.length by omega]
  · rw [hdrop] at hd
    rw [hf, hd, if_pos (List.prefix_refl _), show r.head.length + 5 = r.text.length by omega]

/-! ### Calls -/

/-- The bytes of the body that the length or the chunks tell. -/
theorem readBody_ok {c' : Conn} (h : r.Valid) (hw : r.Within cfg) (hhost : r.HostFound)
    (hhead : ∃ u, c'.pending = r.head ++ u) {c₂ : Conn}
    (hbody : ∀ n, contentLengthOf r.received = .ok n →
      (if isChunked r.headers then readChunked cfg r.head.length c' else readLength cfg r.head.length n c') =
        .ok (r.body.content, r.text.length, c₂)) :
    ∃ b, readBody cfg r.head.length c' =
      .ok (r.returned, b, { c₂ with pending := c₂.pending.drop r.text.length }) := by
  obtain ⟨u, hu⟩ := hhead
  obtain ⟨b, hcheck⟩ := h.checkHead_ok hw
  have hn := h.contentLengthOf_received hw
  have hread := hbody _ hn
  rw [readBody, hu, List.take_left' rfl, h.parse_head hhost]
  cases e : isChunked r.headers with
  | true =>
      have e' : isChunked r.received.headers = true := e
      rw [if_pos e] at hread
      simp only [bind, Except.bind, hcheck, hn, e', if_true, hread]
      exact ⟨_, rfl⟩
  | false =>
      have e' : isChunked r.received.headers = false := e
      rw [if_neg (by simp [e])] at hread
      simp only [bind, Except.bind, hcheck, hn, e', Bool.false_eq_true, if_false, hread]
      exact ⟨_, rfl⟩

theorem Exact.of_out {b : Bool} {c₂ : Conn} (hs : r.text <+: c.stream) (hc : c₂.stream = c.stream)
    (hle : r.text.length ≤ c₂.pending.length) (hw : ∀ w ∈ c₂.waits, w < r.text.length) :
    Exact r c (r.returned, b, { c₂ with pending := c₂.pending.drop r.text.length }) := by
  refine ⟨rfl, hw, ?_⟩
  have hp := c₂.pending_le_stream
  rw [hc] at hp
  obtain ⟨u, hu⟩ := List.prefix_of_prefix_length_le hs hp hle
  rw [← hc]
  change c₂.pending ++ _ = r.text ++ (c₂.pending.drop _ ++ _)
  rw [← hu, List.drop_left' rfl, List.append_assoc]

/-- A framed request at the front of the stream is what the call takes. -/
theorem Request.Framed.answers (hf : r.Framed cfg c) (h : r.Valid) (hw : r.Within cfg) (hs : r.text <+: c.stream) :
    ∃ out, parseRequest cfg c = .ok out ∧ Exact r c out := by
  have hs0 : r.text <+: c.fresh.stream := hs
  have htext : r.text.length = r.head.length + r.body.text.length := by rw [text, List.length_append]
  have hlen := hs0.length_le
  have hhead : r.head.length ≤ c.fresh.stream.length := by omega
  have hu := arrival_eq_append (Request.head_le_stream hs0) hhead (Nat.le_refl _)
  obtain ⟨ws, hws, hlt⟩ := Conn.arrival_waits hhead
  rw [h.parseRequest_eq hw hs]
  have hplain : r.body.text = r.body.content → isChunked r.headers = false →
      contentLengthOf r.received = .ok r.body.content.length →
      ∃ out, readBody cfg r.head.length (c.fresh.arrival r.head.length) = .ok out ∧ Exact r c out := by
    intro hbt hnot hcl
    obtain ⟨c₂, hread, hs₂, hle₂, ws₂, hws₂, hlt₂⟩ := readLength_eq (c := c.fresh.arrival r.head.length) hw.content hbt
      (by rw [Conn.arrival_stream hhead]; exact hs0)
    have hbranch : ∀ n, contentLengthOf r.received = .ok n → (if isChunked r.headers then
        readChunked cfg r.head.length (c.fresh.arrival r.head.length)
        else readLength cfg r.head.length n (c.fresh.arrival r.head.length)) = .ok (r.body.content, r.text.length, c₂) := by
      intro n hn
      rw [hcl, Except.ok.injEq] at hn
      rw [hnot, ← hn]
      exact hread
    obtain ⟨b, hb⟩ := readBody_ok h hw hf.host hu hbranch
    refine ⟨_, hb, .of_out hs (hs₂.trans (Conn.arrival_stream hhead)) hle₂ fun w hm => ?_⟩
    rw [hws₂, hws] at hm
    rcases List.mem_append.mp hm with hm | hm
    · rcases List.mem_append.mp hm with hm | hm
      · cases hm
      · have := hlt w hm
        omega
    · exact hlt₂ w hm
  have hbody := h.body
  have hcl := h.contentLengthOf_received hw
  cases e : r.body with
  | absent =>
      rw [BodyValid, e] at hbody
      rw [e] at hcl
      exact hplain (by rw [e]; rfl) (isChunked_eq_false fun f hf => (hbody f hf).2) (by rw [e]; exact hcl)
  | length digits content =>
      rw [BodyValid, e] at hbody
      rw [e] at hcl
      exact hplain (by rw [e]; rfl) (isChunked_eq_false hbody.2.2.1) (by rw [e]; exact hcl)
  | chunked chunks zeros x trailers =>
      have hread := readChunked_eq e h hw hf.chunks hs
      have hchunked : isChunked r.headers = true := by
        have := hf.chunks
        rw [ChunksFound, e] at this
        exact this.1
      obtain ⟨b, hb⟩ := readBody_ok h hw hf.host hu fun n _ => by
        rw [if_pos hchunked]
        exact hread
      obtain ⟨ws₂, hws₂, hlt₂⟩ := Conn.arrival_waits hlen
      refine ⟨_, hb, .of_out hs (Conn.arrival_stream hlen) (Conn.le_arrival hlen) fun w hm => ?_⟩
      rw [hws₂] at hm
      rcases List.mem_append.mp hm with hm | hm
      · cases hm
      · exact (hlt₂ w hm).2

end

/-! ### Runs -/

/-- Successive calls take these requests, each exactly. -/
inductive Answers (cfg : Config) : List Request → Conn → Prop
  | nil (c : Conn) : Answers cfg [] c
  | cons {r : Request} {rs : List Request} {c : Conn} {out : HttpRequest × Bool × Conn} :
      parseRequest cfg c = .ok out → Exact r c out → Answers cfg rs out.2.2 → Answers cfg (r :: rs) c

/-- Each request is framed at the call that is to take it. -/
def FramedRun (cfg : Config) : List Request → Conn → Prop
  | [], _ => True
  | r :: rs, c => r.Framed cfg c ∧ ∀ out, parseRequest cfg c = .ok out → FramedRun cfg rs out.2.2

def host : Field := ⟨ascii "Host", [0x20], ascii "a", []⟩

def chunkedField : Field := ⟨ascii "Transfer-Encoding", [0x20], ascii "chunked", []⟩

def sampleConfig : Config := ⟨8192, 1048576, 100⟩

def getRequest : Request := ⟨ascii "GET", ascii "/", ascii "HTTP/1.1", [host], .absent⟩

def postRequest (chunks : List Chunk) : Request :=
  ⟨ascii "POST", ascii "/", ascii "HTTP/1.1", [host, chunkedField], .chunked chunks [0x30] [] []⟩

theorem host_valid : host.Valid :=
  ⟨by decide, by decide, by decide, by decide, .inr (Word.trimmed (by decide)), by decide⟩

theorem chunkedField_valid : chunkedField.Valid :=
  ⟨by decide, by decide, by decide, by decide, .inr (Word.trimmed (by decide)), by decide⟩

theorem getRequest_valid : getRequest.Valid := by
  refine ⟨by decide, by decide, .inl rfl, ?_, by decide, ?_⟩
  · rintro f (_ | ⟨_, ⟨⟩⟩)
    exact host_valid
  · change ∀ f ∈ [host], _
    decide

theorem postRequest_valid {chunks : List Chunk} (h : ∀ k ∈ chunks, k.Valid) : (postRequest chunks).Valid := by
  have hmethod : Word (ascii "POST") := by decide
  have htarget : Word (ascii "/") := by decide
  refine ⟨hmethod, htarget, .inl rfl, ?_, ?_, ?_⟩
  · rintro f (_ | ⟨_, (_ | ⟨_, ⟨⟩⟩)⟩)
    · exact host_valid
    · exact chunkedField_valid
  · change ∀ f ∈ [host, chunkedField], _
    decide
  · refine ⟨?_, ⟨chunkedField, by simp [postRequest], by decide, by decide⟩, h,
      ⟨by decide, by set_option maxRecDepth 8000 in decide⟩, ?_, by rintro _ ⟨⟩⟩
    · change ∀ f ∈ [host, chunkedField], _
      decide
    · exact ⟨⟨by decide, by decide⟩, [], [], rfl, by rintro _ ⟨⟩, .inl rfl⟩

def sampleChunk : Chunk := ⟨[0x33], [], ascii "abc"⟩

theorem sampleChunk_valid : sampleChunk.Valid :=
  ⟨by decide, by set_option maxRecDepth 8000 in decide, by decide, ⟨by decide, [], [], rfl, by rintro _ ⟨⟩, .inl rfl⟩,
    by decide⟩

/-- Both requests have come when the first call begins. -/
def sampleConn : Conn where
  pending := (postRequest [sampleChunk]).text ++ getRequest.text
  segments := []
  nonempty := by rintro _ ⟨⟩

/-- An empty chunked request and another one arrive in one piece. -/
def emptyConn : Conn where
  pending := []
  segments := [(postRequest []).text ++ getRequest.text]
  nonempty := by
    rintro s (_ | ⟨_, ⟨⟩⟩)
    decide +kernel

end NeForce.HttpServer
