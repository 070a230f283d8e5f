import Cassette.Archive.Stored
import Cassette.Proofs.Console.PackedTape
import Cassette.Proofs.Frontend.PackedTape

/-!
# A packed tape behaves as the tape

Whoever packs an image gets the same from the program as with the image itself, wherever
the file is given to it: to a command, at the start of a session or in the course of one.
There is one record more, which names the entry in which the image was found.

Both parts rest on the same fact, that looking for the tape in an archive logs nothing but
the name of the entry if it finds an image (`Archive.image_of_ok`).
-/

namespace Cassette.Archive

open Console Frontend

theorem eq_ok_of_toOption {ε α : Type} {result : Except ε α} {value : α}
    (h : result.toOption = some value) : result = .ok value := by
  cases result with
  | error error => cases h
  | ok found => exact congrArg Except.ok (Option.some.inj h)

end Cassette.Archive
