import Hyperion.Kernel

/-!
# The disk streamer

`streamer.c` over the one disk of `disk.c`, whose reads never fail. A stream has a
position in bytes. Its arithmetic is that of `int`.
-/

namespace Hyperion

def diskstreamerSeek (_ : DiskStream) (pos : Int) : DiskStream := ⟨pos⟩

/-- `diskstreamer_read`, at most `fuel` calls deep. Reading before the sector buffer has
no defined result. -/
def diskstreamerReadFrom (image : DiskImage) :
    (fuel : ℕ) → DiskStream → (total : Int) → Option (List UInt8 × DiskStream)
  | 0, _, _ => none
  | fuel + 1, stream, total =>
    let sector := stream.pos.tdiv sectorSize
    let offset := stream.pos.tmod sectorSize
    let overflow := (sectorSize : Int) ≤ offset + total
    let totalToRead := if overflow then total - (offset + total - sectorSize) else total
    if offset < 0 ∧ 0 < totalToRead then none
    else
      let bytes := (List.range totalToRead.toNat).map fun i => image sector (offset.toNat + i)
      let stream : DiskStream := ⟨wrapInt (stream.pos + totalToRead)⟩
      if overflow then
        (diskstreamerReadFrom image fuel stream (total - totalToRead)).map fun r =>
          (bytes ++ r.1, r.2)
      else some (bytes, stream)

/-- The bytes read, and the stream after them. -/
def diskstreamerRead (image : DiskImage) (stream : DiskStream) (total : Int) :
    Option (List UInt8 × DiskStream) :=
  diskstreamerReadFrom image (total.toNat + 1) stream total

end Hyperion
