import ChatBackup.Gzip.Coder
import ChatBackup.Proofs.Deflation

/-!
# What is asked of a way to compress

`Coder.Run` are the states that a compression gets to, with the data it has taken and the bytes it
has put out by then. A `Compressor` is a coder that is fit for its purpose:

> `Compressor.decodes`: what was put out and what is still to come make the data.

When it puts bytes out is up to it: in the course of writing, at a pause or not before the end. So
that writing comes to an end it must put out bytes whenever it takes none (`moves`), and these may
only be such as were held (`held_le`).
-/

namespace ChatBackup

/-- A compression that has taken data and put out bytes. -/
inductive Coder.Run (C : Coder) : C.State → Bytes → Bytes → Prop where
  | start (level : Gzip.Level) : Run C (C.start level) [] []
  | take {s : C.State} {data out : Bytes} (room : Nat) (b : Bytes) : Run C s data out →
    Run C (C.take s room b).state (data ++ b.take (C.take s room b).taken)
      (out ++ (C.take s room b).out)
  | pause {s : C.State} {data out : Bytes} (room : Nat) : Run C s data out →
    Run C (C.pause s room).1 data (out ++ (C.pause s room).2)

/-- A way to compress that loses nothing and comes to an end. -/
structure Compressor extends Coder where
  /-- With what is still to come the compressed bytes decode to the data. -/
  decodes : ∀ {s : State} {data out : Bytes}, toCoder.Run s data out →
    Deflate.Decodes true #[] (out ++ ending s) data
  /-- Where no data is taken bytes are put out. -/
  moves : ∀ {s : State} {data out b : Bytes} {room : Nat}, toCoder.Run s data out → 0 < room →
    b ≠ [] → (take s room b).taken = 0 → (take s room b).out ≠ []
  /-- Where no data is taken nothing but held bytes is put out. -/
  held_le : ∀ {s : State} {data out b : Bytes} {room : Nat}, toCoder.Run s data out →
    (take s room b).taken = 0 →
      (take s room b).out.length + held (take s room b).state ≤ held s

instance : CoeOut Compressor Coder := ⟨Compressor.toCoder⟩

end ChatBackup
