import Sylar.Streams.ZlibStream
import Sylar.Net.Serialize

/-!
# The output buffers of `ZlibStream`

A call of zlib is given the free part of the last buffer, or a new buffer if that is full. The
length of a buffer is brought up to date after the call from the space that zlib has left. So
the used parts of the buffers, one after the other, are what zlib has written.
-/

namespace Sylar.Streams

open Sylar.Net Sylar.Lib

/-- The part in use. -/
def Iovec.content (b : Iovec) : List UInt8 := b.base.take b.len

namespace ZlibStream

variable (fresh : Nat → Nat → UInt8)

def getResult (s : ZlibStream) : List UInt8 := s.buffs.flatMap Iovec.content

/-- The loop of `getByteArray`. -/
def writeAll : List Iovec → Method Net.ByteArray Failure Unit
  | [] => pure ()
  | b :: bs => do
      Net.ByteArray.write fresh b.content
      writeAll bs

def getByteArray (s : ZlibStream) : Except Failure Unit × Net.ByteArray :=
  (do writeAll fresh s.buffs; Net.ByteArray.setPosition 0 :
    Method Net.ByteArray Failure Unit).exec (Net.ByteArray.new fresh 4096)

/-- All that zlib has written. -/
def written (s : ZlibStream) : List UInt8 := s.calls.flatMap Call.written

/-- The buffers hold what zlib has written and nothing else. -/
structure Holds (s : ZlibStream) : Prop where
  full : ∀ b ∈ s.buffs.dropLast, b.len = s.buffSize
  bounded : ∀ b ∈ s.buffs, b.len ≤ s.buffSize
  memory : ∀ b ∈ s.buffs, b.base.length = s.buffSize
  inside : ∀ c ∈ s.calls, c.buffer < s.buffs.length ∧ c.offset + c.availOut ≤ s.buffSize
  result : s.getResult = s.written

/-- `ivc` and the buffers before it, of which only `ivc` may have room. -/
structure Picked (s : ZlibStream) (before : List Iovec) (ivc : Iovec) : Prop where
  full : ∀ b ∈ before, b.len = s.buffSize
  memory : ∀ b ∈ before, b.base.length = s.buffSize
  bounded : ivc.len ≤ s.buffSize
  space : ivc.base.length = s.buffSize
  length_le : s.buffs.length ≤ before.length + 1
  content : before.flatMap Iovec.content ++ ivc.content = s.getResult

theorem picked_malloc {s : ZlibStream} (h : s.Holds) (hfull : ∀ b ∈ s.buffs, b.len = s.buffSize) :
    s.Picked s.buffs (malloc fresh s.buffSize s.buffs.length) where
  full := hfull
  memory := h.memory
  bounded := Nat.zero_le _
  space := by simp [malloc]
  length_le := Nat.le_succ _
  content := by simp [malloc, Iovec.content, getResult]

theorem Holds.pick {s : ZlibStream} (h : s.Holds) :
    s.Picked (s.pick fresh).1 (s.pick fresh).2 := by
  rcases List.eq_nil_or_concat s.buffs with hnil | ⟨before, ivc, hbuffs⟩
  · simp only [ZlibStream.pick, hnil, List.getLast?_nil]
    rw [← hnil]
    exact picked_malloc fresh h (by simp [hnil])
  · have hlast : s.buffs.getLast? = some ivc := by simp [hbuffs]
    have hbefore : s.buffs.dropLast = before := by simp [hbuffs]
    have hfull : ∀ b ∈ before, b.len = s.buffSize := hbefore ▸ h.full
    simp only [ZlibStream.pick, hlast, hbefore]
    split_ifs with hroom
    · refine ⟨hfull, ?_, ?_, ?_, ?_, ?_⟩
      · exact fun b hb => h.memory b (by simp [hbuffs, hb])
      · exact h.bounded ivc (by simp [hbuffs])
      · exact h.memory ivc (by simp [hbuffs])
      · simp [hbuffs]
      · simp [getResult, hbuffs]
    · apply picked_malloc fresh h
      intro b hb
      rw [hbuffs, List.concat_eq_append, List.mem_append, List.mem_singleton] at hb
      rcases hb with hb | rfl
      · exact hfull b hb
      · exact not_not.mp hroom

/-- After a call the buffer holds the bytes of the call behind those it held. -/
theorem content_overwrite {ivc : Iovec} (h : ivc.len ≤ ivc.base.length) (bs : List UInt8) :
    Iovec.content ⟨Blocks.overwrite ivc.base ivc.len bs, ivc.len + bs.length⟩ =
      ivc.content ++ bs :=
  Blocks.take_overwrite h bs

section Iteration

variable {s : ZlibStream} {before : List Iovec} {ivc : Iovec} (hp : s.Picked before ivc)
include hp

/-- The bytes of a call fit behind those that the buffer holds. -/
theorem Picked.fits (output : List UInt8) :
    ivc.len + (output.take (s.buffSize - ivc.len)).length ≤ ivc.base.length := by
  have hbounded := hp.bounded
  have hfit := List.length_take_le (s.buffSize - ivc.len) output
  rw [hp.space]
  omega

/-- The new length counts the bytes of the call, also where it is not brought up to date. -/
theorem Picked.len_eq {a : Answer} (ha : a.ret = .streamError → a.output = []) :
    (if a.ret = .streamError then ivc.len
      else s.buffSize - (s.buffSize - ivc.len - (a.output.take (s.buffSize - ivc.len)).length)) =
      ivc.len + (a.output.take (s.buffSize - ivc.len)).length := by
  have hbounded := hp.bounded
  have hfit := List.length_take_le (s.buffSize - ivc.len) a.output
  split_ifs with herror
  · simp [ha herror]
  · omega

end Iteration

theorem Holds.iterate {s : ZlibStream} (h : s.Holds) (coder : Coder) (fl : Flush) {a : Answer}
    (ha : a.ret = .streamError → a.output = []) : (s.iterate fresh coder fl a).Holds := by
  rcases hpick : s.pick fresh with ⟨before, ivc⟩
  have hp : s.Picked before ivc := by simpa only [hpick] using h.pick fresh
  have hspace := hp.fits a.output
  simp only [ZlibStream.iterate, hpick]
  rw [hp.len_eq ha]
  generalize a.output.take (s.buffSize - ivc.len) = bs at hspace ⊢
  refine ⟨?_, ?_, ?_, ?_, ?_⟩
  · simpa only [List.dropLast_concat] using hp.full
  · intro b hb
    rcases List.mem_append.mp hb with hb | hb
    · exact (hp.full b hb).le
    · rw [List.mem_singleton.mp hb, ← hp.space]
      exact hspace
  · intro b hb
    rcases List.mem_append.mp hb with hb | hb
    · exact hp.memory b hb
    · rw [List.mem_singleton.mp hb, ← hp.space]
      exact Blocks.length_overwrite hspace
  · intro c hc
    simp only [List.length_append, List.length_singleton]
    rcases List.mem_append.mp hc with hc | hc
    · obtain ⟨hbuffer, hinside⟩ := h.inside c hc
      exact ⟨hbuffer.trans_le hp.length_le, hinside⟩
    · rw [List.mem_singleton.mp hc]
      exact ⟨Nat.lt_succ_self _, (Nat.add_sub_of_le hp.bounded).le⟩
  · rw [getResult, written, List.flatMap_append, List.flatMap_append, List.flatMap_singleton,
      List.flatMap_singleton, content_overwrite (hp.bounded.trans_eq hp.space.symm)]
    calc
      before.flatMap Iovec.content ++ (ivc.content ++ bs)
        = s.getResult ++ bs := by rw [← List.append_assoc, hp.content]
      _ = s.written ++ bs := by rw [h.result]

theorem kept_holds : Kept fresh (fun a => a.ret = .streamError → a.output = []) Holds where
  iterate := fun coder fl _ _ ha h => h.iterate fresh coder fl ha
  setInput := fun _ _ h => ⟨h.full, h.bounded, h.memory, h.inside, h.result⟩
  endStream := fun _ _ h => ⟨h.full, h.bounded, h.memory, h.inside, h.result⟩

theorem holds_new (encode : Bool) (buffSize : Nat) : (new encode buffSize).Holds := by
  constructor <;> simp [new, getResult, written]

/-! ### `getByteArray` -/

theorem writeAll_appends (bs : List Iovec) :
    Net.ByteArray.Appends .big (writeAll fresh bs) (bs.flatMap Iovec.content) := by
  induction bs with
  | nil =>
      intro before t ht
      exact ⟨t, rfl, by simpa using ht⟩
  | cons b bs ih =>
      intro before t ht
      obtain ⟨t₁, hfirst, ht₁⟩ := Net.ByteArray.write_appends fresh b.content before t ht
      obtain ⟨t₂, hrest, ht₂⟩ := ih _ t₁ ht₁
      refine ⟨t₂, ?_, ?_⟩
      · rw [writeAll, Method.exec_bind_ok hfirst, hrest]
      · simpa only [List.flatMap_cons, List.append_assoc] using ht₂

/-- The array holds the result, and is read from its beginning. -/
theorem getByteArray_toString (s : ZlibStream) (hsize : s.getResult.length < 2 ^ 64) :
    ∃ ba, s.getByteArray fresh = (.ok (), ba) ∧ ba.toString = .ok s.getResult := by
  obtain ⟨t₁, hwrite, ht₁⟩ := writeAll_appends fresh s.buffs [] _
    (Net.ByteArray.new_at fresh (by decide : 1 ≤ 4096))
  obtain ⟨t₂, hposition, ht₂⟩ := Net.ByteArray.setPosition_zero_at ht₁
  rw [List.nil_append, List.append_nil] at ht₂
  have hcontent : t₂.content = s.getResult := ht₂.content
  have hlength : t₂.size = s.getResult.length := ht₂.size_eq.trans (Nat.zero_add _)
  refine ⟨t₂, ?_, ?_⟩
  · rw [getByteArray, Method.exec_bind_ok hwrite, hposition]
  · rw [Net.ByteArray.toString_eq ht₂.wellFormed (by rw [hlength]; exact hsize), hcontent,
      ht₂.position_eq, List.length_nil, List.drop_zero]

/-- What the buffers of a stream are to be. The array is read with lengths of 64 bits, in which
its size has to fit. -/
structure LosesNothing (s : ZlibStream) : Prop where
  full : ∀ b ∈ s.buffs.dropLast, b.len = s.buffSize
  bounded : ∀ b ∈ s.buffs, b.len ≤ s.buffSize
  inside : ∀ c ∈ s.calls, ∃ b, s.buffs[c.buffer]? = some b ∧
    c.offset + c.availOut ≤ b.base.length
  result : s.getResult = s.written
  array : s.written.length < 2 ^ 64 →
    ∃ ba, s.getByteArray fresh = (.ok (), ba) ∧ ba.toString = .ok s.written

/-- Whatever is written and however zlib answers, the buffers lose nothing. -/
theorem run_loses_nothing (encode : Bool) (buffSize : Nat) (ops : List Operation)
    (answers : List Answer) (h : ∀ a ∈ answers, a.ret = .streamError → a.output = []) :
    LosesNothing fresh (run fresh ops answers (new encode buffSize)).2 := by
  have hholds := (kept_holds fresh).run ops h (holds_new encode buffSize)
  generalize (run fresh ops answers (new encode buffSize)).2 = s at hholds
  refine ⟨hholds.full, hholds.bounded, ?_, hholds.result, ?_⟩
  · intro c hc
    obtain ⟨hbuffer, hinside⟩ := hholds.inside c hc
    refine ⟨s.buffs[c.buffer], List.getElem?_eq_getElem hbuffer, ?_⟩
    rwa [hholds.memory _ (List.getElem_mem hbuffer)]
  · intro hsize
    rw [← hholds.result] at hsize ⊢
    exact s.getByteArray_toString fresh hsize

/-- Seven bytes in three calls over two writes, through buffers of four bytes. -/
theorem run_loses_nothing_across :
    let answers : List Answer :=
      [⟨1, [1, 2, 3], .ok⟩, ⟨1, [4, 5, 6], .ok⟩, ⟨0, [5, 6, 7], .ok⟩]
    let s := (run (fun _ _ => 0) [.write (.raw [9]), .write (.raw [8])] answers (new false 4)).2
    s.buffs = [⟨[1, 2, 3, 4], 4⟩, ⟨[5, 6, 7, 0], 3⟩] ∧ LosesNothing (fun _ _ => 0) s :=
  ⟨by decide, run_loses_nothing _ _ _ _ _ (by decide)⟩

end ZlibStream

end Sylar.Streams
