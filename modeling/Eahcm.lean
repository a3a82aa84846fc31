import Eahcm.Machines
import Eahcm.LittleEndian
import Eahcm.WordTaps
import Eahcm.Types
import Eahcm.Arithmetic
import Eahcm.States
import Eahcm.KeySchedule
import Eahcm.Binary
import Eahcm.JsonGrammar
import Eahcm.Json
import Eahcm.Ciphers
import Eahcm.Streams
import Eahcm.Sessions
import Eahcm.Resumption
import Eahcm.Differences
import Eahcm.Expansion
import Eahcm.Nonces
import Eahcm.Orbits
import Eahcm.ShiftRegisters
import Eahcm.Checksums
import Eahcm.Objects
import Eahcm.Lifetimes
import Eahcm.Outputs
import Eahcm.Locales
import Eahcm.Polynomials
import Eahcm.Facades
import Eahcm.Interleavings
import Eahcm.Threads
import Eahcm.Allotments
import Eahcm.Transcripts
import Eahcm.Damages
import Eahcm.Lineages
import Eahcm.Influences
import Eahcm.Fibres
import Eahcm.Forgeries
import Eahcm.Halves
import Eahcm.Cycles
import Eahcm.Clamps
import Eahcm.Drifts
import Eahcm.Leftovers
import Eahcm.Notations
