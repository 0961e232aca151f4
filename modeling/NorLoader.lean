import NorLoader.Saturating
import NorLoader.Platform
import NorLoader.Geometry
import NorLoader.Fault
import NorLoader.Checksum.Crc32
import NorLoader.Checksum.Adler32
import NorLoader.Flash.Cell
import NorLoader.Flash.Device
import NorLoader.Flash.Simulator
import NorLoader.Flash.PlainSimulator
import NorLoader.Flash.ErasePlan
import NorLoader.Deflate.CodeTree
import NorLoader.Deflate.Format
import NorLoader.Deflate.Decoder
import NorLoader.Deflate.StreamReader
import NorLoader.Deflate.Run
import NorLoader.Deflate.ZlibReader
import NorLoader.Image.Job
import NorLoader.Image.Unpacker
import NorLoader.Image.Loader
import NorLoader.Wire.WireError
import NorLoader.Wire.Varint
import NorLoader.Wire.Cobs
import NorLoader.Wire.Message
import NorLoader.Wire.Codec
import NorLoader.Host.Controller
import NorLoader.Host.Receiver
import NorLoader.Host.MainLoop
import NorLoader.Spi.Registers
import NorLoader.Spi.NorChip
import NorLoader.Spi.MemoryChip
import NorLoader.Spi.Board
import NorLoader.Spi.SerialFifos
import NorLoader.Proofs.Checksum.Bursts
import NorLoader.Proofs.Flash.Primitives
import NorLoader.Proofs.Flash.EraseFrontier
import NorLoader.Proofs.Flash.Tiles
import NorLoader.Proofs.Flash.Spinning
import NorLoader.Proofs.Flash.CheckedErases
import NorLoader.Proofs.Image.Upkeep
import NorLoader.Proofs.Image.Placement
import NorLoader.Proofs.Image.EraseOrder
import NorLoader.Proofs.Image.Surroundings
import NorLoader.Proofs.Image.Contents
import NorLoader.Proofs.Image.Faultless
import NorLoader.Proofs.Image.Imprint
import NorLoader.Proofs.Image.Lockstep
import NorLoader.Proofs.Image.ClosedJob
import NorLoader.Proofs.Image.Reading
import NorLoader.Proofs.Image.WholeWindows
import NorLoader.Proofs.Image.Windows
import NorLoader.Proofs.Image.Feeding
import NorLoader.Proofs.Image.Pieces
import NorLoader.Proofs.Image.FeedSteps
import NorLoader.Proofs.Image.RoundTrip
import NorLoader.Proofs.Image.SplitIndependence
import NorLoader.Proofs.Image.Announced
import NorLoader.Proofs.Image.Overfeeding
import NorLoader.Proofs.Image.DeviceMap
import NorLoader.Proofs.Image.CallRecord
import NorLoader.Proofs.Image.EraseTiling
import NorLoader.Proofs.Image.Accounting
import NorLoader.Proofs.Image.Addresses
import NorLoader.Proofs.Image.ThroughPiece
import NorLoader.Proofs.Image.PhaseOrder
import NorLoader.Proofs.Image.PlannedSectors
import NorLoader.Proofs.Image.EmptyPieces
import NorLoader.Proofs.Image.Stopping
import NorLoader.Proofs.Image.Conservation
import NorLoader.Proofs.Image.SpinningReads
import NorLoader.Proofs.Image.CheckedCalls
import NorLoader.Proofs.Image.Counters
import NorLoader.Proofs.Deflate.Distance
import NorLoader.Proofs.Deflate.Expansion
import NorLoader.Proofs.Deflate.Tracking
import NorLoader.Proofs.Deflate.Consumption
import NorLoader.Proofs.Deflate.ReadOutput
import NorLoader.Proofs.Deflate.BreakingOff
import NorLoader.Proofs.Deflate.EmptyBlocks
import NorLoader.Proofs.Deflate.Repeating
import NorLoader.Proofs.Host.Run
import NorLoader.Proofs.Host.Returning
import NorLoader.Proofs.Host.BlockOrder
import NorLoader.Proofs.Host.DamagedBlocks
import NorLoader.Proofs.Host.EraseSafety
import NorLoader.Proofs.Host.RawSession
import NorLoader.Proofs.Host.RawCompletion
import NorLoader.Proofs.Host.StreamCompletion
import NorLoader.Proofs.Host.Isolation
import NorLoader.Proofs.Host.Timing
import NorLoader.Proofs.Wire.Stuffing
import NorLoader.Proofs.Wire.ReadBack
import NorLoader.Proofs.Wire.FrameLength
import NorLoader.Proofs.Wire.PayloadLimit
import NorLoader.Proofs.Wire.LengthWidth
import NorLoader.Proofs.Host.DeviceUse
import NorLoader.Proofs.Host.Handshake
import NorLoader.Proofs.Host.Framing
import NorLoader.Proofs.Host.Vacancy
import NorLoader.Proofs.Host.KeptError
import NorLoader.Proofs.Host.Delivery
import NorLoader.Proofs.Host.Bench
import NorLoader.Proofs.Host.Service
import NorLoader.Proofs.Spi.ChipAgreement
import NorLoader.Proofs.Spi.WriteOrder
import NorLoader.Proofs.Spi.PagedProgram
import NorLoader.Proofs.Spi.FifoTransfer
