import CenoReth.Mpt.FromProof
import CenoReth.Mpt.Borrow
import CenoReth.Mpt.Chunked
import CenoReth.Mpt.Chunks
import CenoReth.State.PostRoot
import CenoReth.State.Roots
import CenoReth.State.FromProofs
import CenoReth.State.Transition
import CenoReth.State.Agreement
import CenoReth.State.Writer
import CenoReth.State.StateBytes
import CenoReth.State.BlockHashes
import CenoReth.Server.Job
