import GrCcsds.SortFrames.BestDuplicate
import GrCcsds.ReedSolomon.Blocks
import GrCcsds.Foundation.BlockCode
import GrCcsds.ReedSolomon.Chain
import GrCcsds.ConvEncode.Block
import GrCcsds.ConvEncode.Encoder
import GrCcsds.ConvEncode.Forecast
import GrCcsds.ConvEncode.Stream
import GrCcsds.Foundation.Transition
import GrCcsds.FrameSync.Block
import GrCcsds.FrameSync.Window
import GrCcsds.FrameSync.Queue
import GrCcsds.FrameSync.Tasks
import GrCcsds.FrameSync.Content
import GrCcsds.Foundation.Watermark
import GrCcsds.FrameSync.Uniqueness
import GrCcsds.FrameSync.Completion
import GrCcsds.FrameSync.Service
import GrCcsds.Ambiguity.Constellation
import GrCcsds.Ambiguity.Resolver
import GrCcsds.Ambiguity.Lock
import GrCcsds.Ambiguity.Frames
import GrCcsds.Ambiguity.Run
import GrCcsds.Ambiguity.Messages
import GrCcsds.FrameSync.Correlation
import GrCcsds.FrameSync.Fractions
import GrCcsds.FrameSync.Header
import GrCcsds.FrameSync.StreamStart
import GrCcsds.FrameSync.Reads
import GrCcsds.Ambiguity.Rotation
import GrCcsds.Ambiguity.Exhaustive
import GrCcsds.Ambiguity.Chain
import GrCcsds.ConvDecode.Block
import GrCcsds.ConvDecode.Message
import GrCcsds.ConvDecode.Unpuncture
import GrCcsds.ConvDecode.Trellis
import GrCcsds.Ambiguity.TagReads
import GrCcsds.Ambiguity.TagHistory
import GrCcsds.Ambiguity.RxTime
import GrCcsds.BlockPrefix.Stream
import GrCcsds.Messages.Delivery
import GrCcsds.Messages.Alignment
import GrCcsds.Messages.RoundTrip
import GrCcsds.FrameSync.Snr
import GrCcsds.FrameSync.SnrTags
import GrCcsds.FrameSync.Maximum
import GrCcsds.Dll.Block
import GrCcsds.Dll.Position
import GrCcsds.Dll.Bounds
import GrCcsds.Foundation.PiecewiseLinear
import GrCcsds.Orbits.RangeInterpolator
import GrCcsds.Orbits.Restart
import GrCcsds.Ambiguity.Termination
import GrCcsds.BlockPrefix.Forecast
import GrCcsds.Foundation.CountingLoop
import GrCcsds.Foundation.FeedbackRegister
import GrCcsds.Randomiser.Block
import GrCcsds.Randomiser.Output
import GrCcsds.Randomiser.Agreement
import GrCcsds.Constellations.Points
import GrCcsds.Constellations.Ambiguities
import GrCcsds.Constellations.SoftDecisions
import GrCcsds.FrameSync.HexDecoder
import GrCcsds.FrameSync.Arguments
import GrCcsds.FrameSync.SyncMarker
import GrCcsds.Foundation.Collecting
import GrCcsds.TagStorage
import GrCcsds.SortFrames.Limits
import GrCcsds.Foundation.WhileLoop
import GrCcsds.Foundation.Wrapping
import GrCcsds.LoopFilter
import GrCcsds.Ambiguity.LoadAsm
import GrCcsds.Converters.Blocks
import GrCcsds.Converters.Bytes
import GrCcsds.Converters.Agreement
import GrCcsds.Foundation.Newton
import GrCcsds.Foundation.SecondOrder
import GrCcsds.LoopFilter.Design
import GrCcsds.Pll.Block
import GrCcsds.Pll.Chain
import GrCcsds.Ambiguity.Acquisition
import GrCcsds.Link.SoftBits
import GrCcsds.Link.Reception
import GrCcsds.Foundation.Pipeline
import GrCcsds.ReedSolomon.Coded
import GrCcsds.MessageChain.AddAsm
import GrCcsds.MessageChain.Handlers
import GrCcsds.MessageChain.Transfer
import GrCcsds.MessageChain.Framings
import GrCcsds.Foundation.FreeDistance
import GrCcsds.ConvDecode.Correction
import GrCcsds.MessageChain.Concatenated
import GrCcsds.Foundation.ExponentialAverage
import GrCcsds.SnrEstimation.Estimator
import GrCcsds.SnrEstimation.Block
import GrCcsds.FrameSync.Estimation
import GrCcsds.FrameSync.InOrder
