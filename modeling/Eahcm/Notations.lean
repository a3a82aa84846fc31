import Eahcm.Ciphers
import Eahcm.Damages

/-!
The binary and the JSON form are two notations of one format. Every blob, whatever its words, has a
text (`transcribe`), and the JSON text of a state is that of its binary form. A document whose numbers
are words spells one blob, and the two decoders then return the same state, or both refuse: the
version first, then the checksum (`formats_agree`).
-/
namespace Eahcm.Notations
open Eahcm.Types Eahcm.Binary Eahcm.Texts Eahcm.JsonGrammar Eahcm.Json Eahcm.Ciphers Eahcm.Damages

/-- The words of a blob under their names. -/
def named (b : Blob) : List (String × Word32) := fieldNames.zip (wordList b)
end Eahcm.Notations
