import Sylar.Http.Chunks

/-!
# Chunked responses and read boundaries

After a head that announces a chunked body, `recvResponse` returns the data of
the chunks for every content exactly when no read starts inside a size line,
leading zeros apart. Reads that start inside the data or its line end make no
difference.
-/

namespace Sylar.Http

open Sylar.Lib Sylar.Lib.Numerals Sylar.Lib.Pieces Sylar.Net

section Head

/-- A response head that announces a chunked body without a content encoding, as the
head loop leaves it. -/
structure ChunkedHead where
  parser : HttpResponseParser
  chunked : parser.parser.chunked = true
  error : parser.error = 0
  body : parser.data.body = []
  encoding : HeaderMap.find (ascii "content-encoding") parser.data.headers = none

theorem action_body {buffer : Text} (a : ResponseAction) (p : Nat) (r r' : HttpResponseParser)
    (h : HttpResponseParser.action buffer a p r = .ok r') (hr : r.data.body = []) :
    r'.data.body = [] := by
  cases a with
  | mark | startField | writeField | startValue | writeContentLen | writeConnectionClose
  | statusCode | chunkSize | transChunked | done =>
      cases h
      exact hr
  | writeValue =>
      simp only [HttpResponseParser.action] at h
      split at h
      · cases h
        exact hr
      · obtain ⟨key, -, h⟩ := bind_eq_ok h
        obtain ⟨value, -, h⟩ := bind_eq_ok h
        cases h
        exact hr
  | reasonPhrase =>
      obtain ⟨text, -, h⟩ := bind_eq_ok h
      cases h
      exact hr
  | httpVersion =>
      obtain ⟨text, -, h⟩ := bind_eq_ok h
      cases h
      rw [HttpResponseParser.onResponseVersion]
      split
      · exact hr
      · exact hr

theorem httpclientParserExecute_body {buffer : Text} {len n : Nat} {r r' : HttpResponseParser}
    (h : r.httpclientParserExecute buffer len = .ok (n, r')) (hr : r.data.body = []) :
    r'.data.body = [] := by
  obtain ⟨⟨cs, p, y⟩, hrun, h⟩ := bind_eq_ok h
  have hy : y.data.body = [] := by
    rw [HttpResponseParser.writeExec] at hrun
    split at hrun
    · cases hrun
      exact hr
    · rw [Ragel.exec_eq] at hrun
      obtain ⟨z, hevents, hz⟩ := map_eq_ok hrun
      cases hz
      exact Ragel.runEvents_keeps _ action_body hevents hr
  simp only at h
  split at h
  · cases h
    exact hy
  · cases h

/-- A call of the parser for the head leaves the body empty and the buffer as long as it was. -/
theorem execute_head {buffer data : Text} {len n : Nat} {r r' : HttpResponseParser}
    (h : r.execute buffer len false = .ok (n, data, r')) (hr : r.data.body = [])
    (hlen : len ≤ buffer.length) : r'.data.body = [] ∧ data.length = buffer.length := by
  obtain ⟨⟨offset, y⟩, hcall, h⟩ := bind_eq_ok h
  have hy := httpclientParserExecute_body hcall hr
  cases h
  refine ⟨hy, ?_⟩
  refine List.length_append.trans ?_
  rw [List.length_drop (l := buffer)]
  apply Nat.add_sub_of_le
  rw [List.length_drop, List.length_take]
  omega

/-- What the head loop returns has no error and an empty body, and what is left in the
buffer fits. -/
theorem recvHead_spec {env : ResponseEnv} {rounds offset offset' : Nat} {data data' : Text}
    {parser parser' : HttpResponseParser} {s s' : Socket} (hbody : parser.data.body = [])
    (hdata : data.length = env.buffSize + 1) (hoffset : offset ≤ env.buffSize)
    (h : (HttpConnection.recvHead env rounds parser data offset).exec s =
      (.ok (some (parser', data', offset')), s')) :
    parser'.data.body = [] ∧ parser'.error = 0 ∧ data'.length = env.buffSize + 1 ∧
      offset' ≤ env.buffSize := by
  induction rounds generalizing parser data offset s with
  | zero => cases h
  | succ rounds ih =>
      rw [HttpConnection.recvHead, Method.exec_bind] at h
      rcases hread : (Socket.read (env.buffSize - offset) : Method Socket Fault Text).exec s with
        ⟨_ | bytes, t⟩
      · rw [hread] at h
        cases h
      · have hle : bytes.length ≤ env.buffSize - offset := Socket.length_read_le hread
        rw [hread] at h
        simp only at h
        split at h
        · cases h
        · have hbuffer : (HttpConnection.terminate (Blocks.overwrite data offset bytes)
              (bytes.length + offset)).length = env.buffSize + 1 := by
            have hover : (Blocks.overwrite data offset bytes).length = env.buffSize + 1 :=
              (Blocks.length_overwrite (by omega)).trans hdata
            refine (Blocks.length_overwrite ?_).trans hover
            rw [List.length_singleton]
            omega
          rw [Method.exec_bind, Method.exec_lift] at h
          rcases hexec : parser.execute (HttpConnection.terminate
              (Blocks.overwrite data offset bytes) (bytes.length + offset))
              (bytes.length + offset) false with _ | ⟨n, data₁, parser₁⟩
          · rw [hexec] at h
            cases h
          · obtain ⟨hbody₁, hdata₁⟩ := execute_head hexec hbody (by omega)
            rw [hexec] at h
            simp only at h
            split at h
            · cases h
            · next hnoerr =>
                split at h
                · cases h
                · split at h
                  · cases h
                    simp only [HttpResponseParser.hasError, Bool.or_eq_true, not_or,
                      decide_eq_true_eq, not_not] at hnoerr
                    exact ⟨hbody₁, hnoerr.2, hdata₁.trans hbuffer, by omega⟩
                  · exact ih hbody₁ (hdata₁.trans hbuffer) (by omega) h

/-- After the head, `recvResponse` goes on with the body. -/
theorem recvResponse_eq {env : ResponseEnv} {parser : HttpResponseParser} {data : Text}
    {offset : Nat} {s s' : Socket}
    (h : (HttpConnection.recvHead env (s.pending.flatten.length + 1) (.new env.status) env.buffer
      0).exec s = (.ok (some (parser, data, offset)), s')) :
    (HttpConnection.recvResponse env).exec s =
      (HttpConnection.recvBody env parser data offset).exec s' := by
  rw [HttpConnection.recvResponse, Method.exec_bind_ok (Method.exec_get _),
    Method.exec_bind_ok h]

/-- A head with a chunked body that `recvResponse` has received. -/
theorem exists_chunkedHead {env : ResponseEnv} {parser : HttpResponseParser} {data : Text}
    {rounds offset : Nat} {s s' : Socket}
    (h : (HttpConnection.recvHead env rounds (.new env.status) env.buffer 0).exec s =
      (.ok (some (parser, data, offset)), s')) (hchunked : parser.parser.chunked = true)
    (hencoding : HeaderMap.find (ascii "content-encoding") parser.data.headers = none) :
    (∃ head : ChunkedHead, head.parser = parser) ∧ data.length = env.buffSize + 1 ∧
      offset ≤ env.buffSize := by
  obtain ⟨hbody, herr, hdata, hoffset⟩ := recvHead_spec rfl env.length_buffer (Nat.zero_le _) h
  exact ⟨⟨⟨parser, hchunked, herr, hbody, hencoding⟩, rfl⟩, hdata, hoffset⟩

end Head

section Body

variable {env : ResponseEnv} {head : ChunkedHead} {f : Framing} {chunks : List Text}
  {buffer : Text} {offset : Nat} {reads : List Nat}

theorem length_encodeChunks {gs : List (Text × Text)}
    (hgs : ∀ g ∈ gs, g.2.length = numeral 16 0 g.1) :
    (encodeChunks gs).length =
      ((gs.map Prod.fst).map fun d => d.length + 2 + (numeral 16 0 d + 2)).sum := by
  induction gs with
  | nil => rfl
  | cons g gs ih =>
      have hrest := ih fun k hk => hgs k (List.mem_cons_of_mem _ hk)
      rw [List.map_cons, List.map_cons, List.sum_cons, ← hrest,
        ← length_encodeChunk (hgs g List.mem_cons_self)]
      exact List.length_append

namespace Framing

theorem Fits.length_eq (h : f.Fits chunks) : chunks.length = f.sizes.length := by
  simpa using congrArg List.length h

theorem Fits.map_fst (h : f.Fits chunks) : (f.sizes.zip chunks).map Prod.fst = f.sizes :=
  List.map_fst_zip h.length_eq.ge

theorem Fits.map_snd (h : f.Fits chunks) : (f.sizes.zip chunks).map Prod.snd = chunks :=
  List.map_snd_zip h.length_eq.le

theorem Fits.wellSized (h : f.Fits chunks) : ∀ g ∈ f.sizes.zip chunks, WellSized g := by
  intro g hg
  obtain ⟨hd, hpos, hlt⟩ := f.sizes_ok g.1 (List.of_mem_zip hg).1
  refine ⟨hd, hpos, hlt, ?_⟩
  obtain ⟨i, hi, rfl⟩ := List.getElem_of_mem hg
  have hget : (chunks.map List.length)[i]? = (f.sizes.map (numeral 16 0))[i]? := by
    rw [h]
  rw [List.length_zip] at hi
  rw [List.getElem?_map, List.getElem?_map, List.getElem?_eq_getElem (by omega),
    List.getElem?_eq_getElem (by omega)] at hget
  rw [List.getElem_zip]
  exact Option.some.inj hget

theorem Fits.length_stream (h : f.Fits chunks) : (f.stream chunks).length = f.length := by
  rw [stream, length_encodeChunks, length, List.map_append, h.map_fst]
  · rfl
  · intro g hg
    obtain hg | hg := List.mem_append.mp hg
    · exact (h.wellSized g hg).length
    · obtain rfl := List.mem_singleton.mp hg
      exact f.last_ok.2.symm

/-- Every framing fits chunks of letters that are no digits. -/
theorem exists_letters (f : Framing) :
    ∃ chunks, f.Fits chunks ∧
      ∀ g ∈ f.sizes.zip chunks, g.2 = List.replicate g.2.length 122 := by
  refine ⟨f.sizes.map fun d => List.replicate (numeral 16 0 d) 122, ?_, ?_⟩
  · simp [Fits, Function.comp_def]
  · intro g hg
    obtain ⟨d, -, hd⟩ := List.mem_map.mp (List.of_mem_zip hg).2
    rw [← hd, List.length_replicate]

end Framing

/-- What is left of the head's last read and the reads to come, as pieces. -/
theorem holds_cut (hfits : f.Fits chunks) (hlen : buffer.length = env.buffSize + 1)
    (hbuffer : buffer.take offset = (f.stream chunks).take offset)
    (hoffset : offset ≤ env.buffSize) (hreads : ∀ n ∈ reads, 0 < n ∧ n ≤ env.buffSize)
    (hsum : offset + reads.sum = f.length) :
    ∃ pieces, Holds env buffer offset (reads.splitLengths ((f.stream chunks).drop offset)) pieces ∧
      pieces.flatten = f.stream chunks ∧
      pieces.map List.length = if offset = 0 then reads else offset :: reads := by
  have hlength := hfits.length_stream
  have hdrop : ((f.stream chunks).drop offset).length = reads.sum := by
    rw [List.length_drop]
    omega
  have hflat := List.flatten_splitLengths ((f.stream chunks).drop offset) reads hdrop.le
  have hmap := List.map_splitLengths_length ((f.stream chunks).drop offset) reads hdrop.ge
  have htake : (buffer.take offset).length = offset := by
    rw [List.length_take]
    omega
  have hfit : ∀ w ∈ reads.splitLengths ((f.stream chunks).drop offset),
      w ≠ [] ∧ w.length ≤ env.buffSize := by
    intro w hw
    obtain ⟨hpos, hle⟩ := hreads w.length (hmap ▸ List.mem_map_of_mem hw)
    exact ⟨List.length_pos_iff.mp hpos, hle⟩
  refine ⟨_, ⟨hlen, hoffset, ?_, rfl⟩, ?_, ?_⟩
  · intro w hw
    split at hw
    · exact hfit w hw
    · obtain rfl | hw := List.mem_cons.mp hw
      · exact ⟨List.length_pos_iff.mp (by omega), by omega⟩
      · exact hfit w hw
  · split
    · next hzero => rw [hflat, hzero, List.drop_zero]
    · rw [List.flatten_cons, hflat, hbuffer, List.take_append_drop]
  · split
    · exact hmap
    · rw [List.map_cons, hmap, htake]

/-- A read that starts at the start of the stream starts inside no line. -/
theorem leavesSize_cut (line : Nat × Text) :
    LeavesSize (starts 0 (if offset = 0 then reads else offset :: reads)) line ↔
      LeavesSize (starts offset reads) line := by
  split
  · next hzero => rw [hzero]
  · rw [starts, Nat.zero_add]
    constructor
    · exact fun h b hb => h b (List.mem_cons_of_mem _ hb)
    · intro h b hb hlt
      obtain rfl | hb := List.mem_cons.mp hb
      · exact absurd hlt (Nat.not_lt_zero _)
      · exact h b hb hlt

/-- The body that the chunks give is the body of the response. -/
theorem exec_recvBody_some {pending : List Text} {parser' : HttpResponseParser} {body : Text}
    (hdata : parser'.data = head.parser.data)
    (h : ((HttpConnection.recvChunks env (offset + pending.flatten.length + 1) head.parser []
      buffer offset).exec ⟨pending, false⟩).1 = .ok (some (parser', body))) :
    ((HttpConnection.recvBody env head.parser buffer offset).exec ⟨pending, false⟩).1 =
      .ok (some { head.parser.data with body := body }) := by
  have hdecoded : HttpConnection.decoded env head.parser.data body = body := by
    rw [HttpConnection.decoded, HttpResponse.getHeader, head.encoding]
    rfl
  rw [HttpConnection.recvBody, Method.exec_bind_ok (Method.exec_get _)]
  simp only [head.chunked, if_true]
  rw [Method.exec_bind_of_fst h]
  simp only [hdata]
  split
  · next hnil =>
      rw [hnil, ← head.body]
      rfl
  · rw [hdecoded]
    rfl

theorem exec_recvBody_none {pending : List Text}
    (h : ((HttpConnection.recvChunks env (offset + pending.flatten.length + 1) head.parser []
      buffer offset).exec ⟨pending, false⟩).1 = .ok none) :
    ((HttpConnection.recvBody env head.parser buffer offset).exec ⟨pending, false⟩).1 =
      .ok none := by
  rw [HttpConnection.recvBody, Method.exec_bind_ok (Method.exec_get _)]
  simp only [head.chunked, if_true]
  rw [Method.exec_bind_of_fst h]
  rfl

theorem length_zip_lt {pending : List Text} (hfits : f.Fits chunks)
    (hsum : f.length ≤ offset + pending.flatten.length) :
    (f.sizes.zip chunks).length < offset + pending.flatten.length + 1 := by
  have hlines : ∀ ds : List Text,
      ds.length ≤ (ds.map fun d => d.length + 2 + (numeral 16 0 d + 2)).sum := by
    intro ds
    induction ds with
    | nil => exact Nat.le_refl _
    | cons d ds ih =>
        rw [List.map_cons, List.sum_cons, List.length_cons]
        omega
  have hle := hlines (f.sizes ++ [f.last])
  have hlen := hfits.length_eq
  rw [Framing.length] at hsum
  rw [List.length_append] at hle
  rw [List.length_zip]
  omega

/-- After a chunked head every content of the chunks is returned exactly when no read
starts inside a size line, leading zeros apart. The reads may cut the data and its line
ends anywhere. -/
theorem recvBody_chunks_iff (env : ResponseEnv) (head : ChunkedHead) (f : Framing)
    (offset : Nat) (reads : List Nat) (hoffset : offset ≤ env.buffSize)
    (hreads : ∀ n ∈ reads, 0 < n ∧ n ≤ env.buffSize)
    (hsum : offset + reads.sum = f.length) :
    (∀ chunks buffer, f.Fits chunks → buffer.length = env.buffSize + 1 →
      buffer.take offset = (f.stream chunks).take offset →
      ((HttpConnection.recvBody env head.parser buffer offset).exec
        ⟨reads.splitLengths ((f.stream chunks).drop offset), false⟩).1 =
        .ok (some { head.parser.data with body := chunks.flatten })) ↔
      ∀ line ∈ f.lines, LeavesSize (starts offset reads) line := by
  -- the condition, line by line as the code meets them
  have hcond : (∀ line ∈ f.lines, LeavesSize (starts offset reads) line) ↔
      SizesRead (f.sizes ++ [f.last]) (if offset = 0 then reads else offset :: reads) := by
    rw [sizesRead_iff]
    · exact forall₂_congr fun line _ => (leavesSize_cut line).symm
    · intro d hd
      obtain hd | hd := List.mem_append.mp hd
      · exact (f.sizes_ok d hd).1
      · obtain rfl := List.mem_singleton.mp hd
        exact f.last_ok.1
    · split
      · next hzero =>
          rw [hzero, Nat.zero_add] at hsum
          exact hsum.ge
      · rw [List.sum_cons]
        exact hsum.ge
  have hrounds : ∀ {chunks : List Text}, f.Fits chunks → (f.sizes.zip chunks).length <
      offset + (reads.splitLengths ((f.stream chunks).drop offset)).flatten.length + 1 := by
    intro chunks hfits
    have hlength := hfits.length_stream
    have hdrop : ((f.stream chunks).drop offset).length = reads.sum := by
      rw [List.length_drop]
      omega
    apply length_zip_lt hfits
    rw [List.flatten_splitLengths _ _ hdrop.le, hdrop]
    exact hsum.ge
  rw [hcond]
  constructor
  · intro hall
    by_contra hsizes
    obtain ⟨chunks, hfits, hletters⟩ := f.exists_letters
    have hlength := hfits.length_stream
    have hfront : ((f.stream chunks).take offset).length = offset := by
      rw [List.length_take]
      omega
    obtain ⟨buffer, hlen, hbuffer⟩ : ∃ buffer : Text, buffer.length = env.buffSize + 1 ∧
        buffer.take offset = (f.stream chunks).take offset := by
      refine ⟨(f.stream chunks).take offset ++ List.replicate (env.buffSize + 1 - offset) 0, ?_, ?_⟩
      · rw [List.length_append, hfront, List.length_replicate]
        omega
      · rw [List.take_append_of_le_length hfront.ge, List.take_take, Nat.min_self]
    have hgot := hall chunks buffer hfits hlen hbuffer
    obtain ⟨pieces, hholds, hflat, hmap⟩ := holds_cut hfits hlen hbuffer hoffset hreads hsum
    obtain hnone | ⟨parser', body', hdata, hsome, hshort⟩ :=
      @recvChunks_not_sizesRead env [] buffer offset _ _ pieces head.parser _ f.last
        hfits.wellSized hletters f.last_ok hholds head.error hflat
        (by rw [hfits.map_fst, hmap]; exact hsizes) (hrounds hfits)
    · exact nomatch hgot.symm.trans (exec_recvBody_none hnone)
    · have hsame := hgot.symm.trans (exec_recvBody_some hdata hsome)
      injection hsame with hsame
      injection hsame with hsame
      have hbody : chunks.flatten = body' := congrArg HttpResponse.body hsame
      rw [hfits.map_snd, hbody, List.length_nil] at hshort
      omega
  · intro hsizes chunks buffer hfits hlen hbuffer
    obtain ⟨pieces, hholds, hflat, hmap⟩ := holds_cut hfits hlen hbuffer hoffset hreads hsum
    obtain ⟨parser', hdata, hexec⟩ :=
      @recvChunks_sizesRead env [] buffer offset _ _ pieces head.parser _ f.last
        hfits.wellSized f.last_ok hholds head.error hflat
        (by rw [hfits.map_fst, hmap]; exact hsizes) (hrounds hfits)
    rw [hfits.map_snd, List.nil_append] at hexec
    exact exec_recvBody_some hdata hexec

end Body

/-- A buffer of 64 bytes. -/
def smallEnv : ResponseEnv where
  buffSize := 64
  buffer := List.replicate 65 0
  status := 0
  cast := fun _ => none
  gunzip := id
  inflate := id
  length_buffer := by decide
  buffSize_lt := by decide

/-- The sizes `05` and `0`. -/
def fiveFraming : Framing where
  sizes := [ascii "05"]
  last := ascii "0"
  sizes_ok := by decide +kernel
  last_ok := by decide +kernel

def plainHead : ChunkedHead where
  parser := (HttpResponseParser.new 0).setParser fun c => { c with chunked := true }
  chunked := rfl
  error := rfl
  body := rfl
  encoding := rfl

/-- Reads that start behind the leading zero, in the data and in its line end. -/
theorem recvBody_chunks_iff_harmless_cuts :
    (∀ n ∈ [1, 5, 4, 6], 0 < n ∧ n ≤ smallEnv.buffSize) ∧
      0 + [1, 5, 4, 6].sum = fiveFraming.length ∧
      ∀ chunks buffer, fiveFraming.Fits chunks → buffer.length = smallEnv.buffSize + 1 →
        buffer.take 0 = (fiveFraming.stream chunks).take 0 →
        ((HttpConnection.recvBody smallEnv plainHead.parser buffer 0).exec
          ⟨[1, 5, 4, 6].splitLengths ((fiveFraming.stream chunks).drop 0), false⟩).1 =
          .ok (some { plainHead.parser.data with body := chunks.flatten }) := by
  have hreads : ∀ n ∈ [1, 5, 4, 6], 0 < n ∧ n ≤ smallEnv.buffSize := by decide
  have hsum : 0 + [1, 5, 4, 6].sum = fiveFraming.length := by decide +kernel
  refine ⟨hreads, hsum, ?_⟩
  exact (recvBody_chunks_iff smallEnv plainHead fiveFraming 0 [1, 5, 4, 6] (Nat.zero_le _) hreads
    hsum).mpr (by decide +kernel)

/-- A read that starts inside the size line `10` of a chunk of sixteen bytes: the size is
taken for zero and the body for empty. -/
theorem recvResponse_size_cut :
    let head := ascii "HTTP/1.1 200 OK\r\nTransfer-Encoding: chunked\r\n\r\n"
    let body := fun reads =>
      ((HttpConnection.recvResponse smallEnv).exec ⟨reads, false⟩).1.map
        (Option.map HttpResponse.body)
    body [head, ascii "10\r\n0123456789abcdef\r\n0\r\n\r\n"] =
        .ok (some (ascii "0123456789abcdef")) ∧
      body [head, ascii "1", ascii "0\r\n0123456789abcdef\r\n0\r\n\r\n"] = .ok (some []) := by
  decide +kernel

end Sylar.Http
