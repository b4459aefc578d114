import OscTap.Lib.Bytes
import OscTap.Lib.Checked
import OscTap.Lib.CString
import OscTap.Lib.AutoReset
import OscTap.Lib.Brackets
import OscTap.Lib.Splitter
import OscTap.Lib.Machine
import OscTap.Lib.Sweep
import OscTap.Lib.Ostream
import OscTap.Lib.Decimal
import OscTap.Lib.Strtol
import OscTap.Osc.Types
import OscTap.Osc.Packet
import OscTap.Received.Elements
import OscTap.Received.Validate
import OscTap.Received.PacketSize
import OscTap.Received.Grammar
import OscTap.Received.Encoded
import OscTap.Received.Reader
import OscTap.Received.ReadSafety
import OscTap.Listener.PacketListener
import OscTap.Listener.Agreement
import OscTap.Framing.Deframer
import OscTap.Framing.Reassembly
import OscTap.Framing.Progress
import OscTap.Framing.Throwing
import OscTap.Outbound.PacketStream
import OscTap.Outbound.Stack
import OscTap.Outbound.Refinement
import OscTap.Outbound.AnyCall
import OscTap.Outbound.Reserve
import OscTap.Outbound.Layout
import OscTap.Outbound.Links
import OscTap.Outbound.Encode
import OscTap.Outbound.Fresh
import OscTap.Outbound.Ready
import OscTap.Received.Decode
import OscTap.Received.Reading
import OscTap.Received.ArrayItems
import OscTap.Received.Inspect
import OscTap.Outbound.RoundTrip
import OscTap.Outbound.Message
import OscTap.Outbound.EmbeddedNul
import OscTap.Outbound.CharArray
import OscTap.Tcp.Socket
import OscTap.Tcp.Network
import OscTap.Tcp.Delivery
import OscTap.Tcp.Descriptors
import OscTap.Ip.StopRequest
import OscTap.Ip.Timers
import OscTap.Received.Print
import OscTap.Received.Printing
import OscTap.Received.PrintBundle
import OscTap.Received.PrintHistory
import OscTap.Received.ArgumentStream
import OscTap.Received.Meaning
import OscTap.Outbound.Relay
import OscTap.Outbound.RelayPrint
import OscTap.Listener.Plan
import OscTap.Listener.MessageMapping
import OscTap.Outbound.Sender
import OscTap.Tcp.Server
import OscTap.Ip.Multiplexer
import OscTap.Ip.EndpointName
import OscTap.Ip.Moves
import OscTap.Ip.Datagrams
import OscTap.Ip.Stopping
import OscTap.Ip.TimerWalk
import OscTap.Win32.Multiplexer
import OscTap.Win32.Moves
import OscTap.Win32.Datagrams
import OscTap.Demos.Hub
import OscTap.Demos.Endpoint
import OscTap.Demos.Bridge
import OscTap.Demos.OscDump
import OscTap.Demos.OscSend
import OscTap.Demos.TcpSend
import OscTap.Fuzz.Parse
import OscTap.Fuzz.Deframe
