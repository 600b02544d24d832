import Xuanqiong.Net.Frames
import Xuanqiong.Net.UringSend
import Xuanqiong.Util.InputBlocks
import Xuanqiong.Util.OutputBlocks

/-! What the two ends of an rpc do to the blocks of a connection: they move along the input without
giving a block back, and add to the output at its end. -/
namespace Xuanqiong

namespace Connection

variable {c d : Connection}

theorem pull_marks {len : Nat} {bytes : List UInt8} (run : c.pull len = some (bytes, d)) :
    c.readBuf.SameMarks d.readBuf := by
  obtain ⟨⟨bs, b⟩, hb, hd⟩ := Option.map_eq_some_iff.mp run
  cases hd
  exact (InputBuffer.pushLimit_marks c.readBuf _).trans (InputBuffer.pull_marks hb)

theorem Takes.marks (h : c.Takes d) : c.readBuf.SameMarks d.readBuf := by
  cases h with
  | nothing => exact ⟨rfl, rfl⟩
  | word run =>
    obtain ⟨⟨ok, value, b⟩, hb, hd⟩ := Option.map_eq_some_iff.mp run
    cases hd
    exact InputBuffer.fetchUint32_marks hb
  | bytes run => exact pull_marks run
  | message run => exact (pull_marks run).trans ⟨rfl, rfl⟩

structure Adds (c d : Connection) : Prop where
  inv : d.writeBuf.Inv
  grows : c.writeBuf.Grows d.writeBuf
  compact : c.writeBuf.Compact → d.writeBuf.Compact

theorem Adds.nothing (inv : c.writeBuf.Inv) (same : d.writeBuf = c.writeBuf) : c.Adds d := by
  refine ⟨same ▸ inv, ?_, ?_⟩
  · rw [same]
    exact .refl _
  · rw [same]
    exact id

theorem Adds.trans {e : Connection} (h : c.Adds d) (h' : d.Adds e) : c.Adds e :=
  ⟨h'.inv, h.grows.trans h'.grows, fun compact => h'.compact (h.compact compact)⟩

theorem appendMessage_adds {junk : Nat → UInt8} {message : List UInt8} (inv : c.writeBuf.Inv)
    (hs : c.appendMessage junk message = some d) : c.Adds d := by
  obtain ⟨b, hb, hs⟩ := Option.bind_eq_some_iff.mp hs
  obtain ⟨w, hw, hd⟩ := Option.map_eq_some_iff.mp hs
  cases hd
  obtain ⟨b', hb', inv', grows, _⟩ := OutputBuffer.append_spec inv (le32 message.length)
  cases hb.symm.trans hb'
  obtain ⟨w', hw', inv'', _⟩ :=
    OutputBuffer.serialize_spec junk message.length inv' message (Nat.le_refl _)
  cases hw.symm.trans hw'
  refine ⟨inv'', grows.trans (OutputBuffer.serialize_grows junk _ inv' message hw),
    fun compact => ?_⟩
  exact (compact.appendLoop hb).serialize hw

end Connection

end Xuanqiong
