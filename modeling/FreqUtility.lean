import FreqUtility.Proofs.LostLetter
import FreqUtility.Proofs.Wyhash
import FreqUtility.Proofs.Footprint
import FreqUtility.Proofs.AioProgress
import FreqUtility.Proofs.ChunkGeometry
import FreqUtility.Proofs.AioBlockSize
import FreqUtility.Proofs.Preconditions
import FreqUtility.Proofs.WholeFile
