import EthP2P.Broadcast.Generations
import EthP2P.Broadcast.Fate
import EthP2P.Broadcast.Parking
import EthP2P.Broadcast.Handover
import EthP2P.Broadcast.Registration
import EthP2P.Stack.Callers
import EthP2P.Stack.Setup
import EthP2P.Transport.CloseCode
import EthP2P.Rs.Encoding
import EthP2P.Rs.Bounds
import EthP2P.Rs.Dispatch
import EthP2P.Broadcast.Disposal
import EthP2P.Stack.Headers
import EthP2P.Wire.Selector
import EthP2P.Broadcast.Queue
import EthP2P.Broadcast.ChunkFrames
import EthP2P.Identity.Unmarshal
