import ServerLynx.System
import ServerLynx.Slots
import ServerLynx.EventProtocol
import ServerLynx.IoInvariant
import ServerLynx.IoPaths
import ServerLynx.IoRun
import ServerLynx.OpenEvents
import ServerLynx.Links
import ServerLynx.Protocol
import ServerLynx.Connect
import ServerLynx.Kinds
import ServerLynx.Lifecycle
import ServerLynx.Commands
import ServerLynx.Sends
import ServerLynx.Delivery
import ServerLynx.SendLength
import ServerLynx.Ownership
import ServerLynx.Conservation
import ServerLynx.ReleaseTwice
import ServerLynx.Allocator
import ServerLynx.Util
import ServerLynx.MemCpy
import ServerLynx.ByteOrder
import ServerLynx.Spsc
import ServerLynx.Shutdown
import ServerLynx.LoopMemory
import ServerLynx.Correlation
import ServerLynx.Attempts
import ServerLynx.Reads
import ServerLynx.Framing
import ServerLynx.Received
import ServerLynx.Swap
import ServerLynx.Startup
import ServerLynx.LoopKept
import ServerLynx.Leaks
import ServerLynx.ClientHandles
import ServerLynx.Setup
import ServerLynx.Plugin
import ServerLynx.PluginRun
import ServerLynx.StateWait
import ServerLynx.Launch
import ServerLynx.Sizes
import ServerLynx.ReadEvents
import ServerLynx.Mailbox
import ServerLynx.EventDelivery
import ServerLynx.ConnectionProtocol
import ServerLynx.Inbound
import ServerLynx.Writes
import ServerLynx.Registered
import ServerLynx.Teardown
import ServerLynx.Drain
