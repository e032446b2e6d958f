import NetLabs.Lib.Machine
import NetLabs.Lib.Loop
import NetLabs.Lib.Ring
import NetLabs.Lib.Slots
import NetLabs.Lib.Fifo
import NetLabs.Lib.CText
import NetLabs.Lib.Tokens
import NetLabs.Lib.Lines
import NetLabs.Lib.Buffer
import NetLabs.Lib.Marker
import NetLabs.Lib.Double
import NetLabs.Lib.Relabel
import NetLabs.Lib.EndAround
import NetLabs.Lib.Chunks
import NetLabs.Ktp.Entry
import NetLabs.Ktp.ThreadR
import NetLabs.Ktp.ThreadS
import NetLabs.Ktp.Calls
import NetLabs.Ktp.Life
import NetLabs.Ktp.Receiver
import NetLabs.Ktp.Sender
import NetLabs.Ktp.WakeUp
import NetLabs.Ktp.Directions
import NetLabs.Ktp.Reuse
import NetLabs.Ktp.Link
import NetLabs.Ktp.Stall
import NetLabs.Ktp.World
import NetLabs.Ktp.Ownership
import NetLabs.Ktp.Rendezvous
import NetLabs.Ktp.Return
import NetLabs.Ktp.Reclaim
import NetLabs.Ktp.Lock
import NetLabs.Ktp.Window
import NetLabs.Ktp.Delivery
import NetLabs.Ktp.Files
import NetLabs.Ktp.Copying
import NetLabs.Ktp.Unread
import NetLabs.Ktp.Acks
import NetLabs.Ktp.Transmit
import NetLabs.Ktp.Advertised
import NetLabs.Ktp.Joint
import NetLabs.Ktp.Repair
import NetLabs.Ktp.Payload
import NetLabs.Ktp.Descriptors
import NetLabs.Mail.Server
import NetLabs.Mail.Segments
import NetLabs.Mail.Strtok
import NetLabs.Mail.Confinement
import NetLabs.Mail.Mailbox
import NetLabs.Mail.Submission
import NetLabs.Mail.RoundTrip
import NetLabs.Mail.Numbering
import NetLabs.Mail.DataMode
import NetLabs.Mail.Replies
import NetLabs.Mail.Body
import NetLabs.Mail.Envelope
import NetLabs.Mail.Accepted
import NetLabs.Mail.Response
import NetLabs.Mail.Listing
import NetLabs.Mail.Accumulation
import NetLabs.Mail.Typed
import NetLabs.Tasks.Table
import NetLabs.Tasks.Server
import NetLabs.Tasks.Completion
import NetLabs.Tasks.Orphans
import NetLabs.Tasks.Exclusive
import NetLabs.Tasks.Refusal
import NetLabs.Tasks.Inactivity
import NetLabs.Tasks.Loading
import NetLabs.Tasks.Results
import NetLabs.Tasks.Finish
import NetLabs.Tasks.Workers
import NetLabs.Tasks.Drain
import NetLabs.Chat.Server
import NetLabs.Chat.Rounds
import NetLabs.Chat.Select
import NetLabs.Chat.Closing
import NetLabs.Chat.Reach
import NetLabs.Chat.Serial
import NetLabs.Chat.Announcements
import NetLabs.Chat.Players
import NetLabs.Cldp.Packet
import NetLabs.Cldp.Server
import NetLabs.Cldp.Client
import NetLabs.Cldp.Discovery
import NetLabs.Cldp.Exchange
import NetLabs.Cldp.Truncation
import NetLabs.Cldp.Matching
import NetLabs.Cldp.Network
import NetLabs.Cldp.Printing
import NetLabs.Cldp.Checksum
import NetLabs.Crypt.Upload
import NetLabs.Crypt.Cipher
import NetLabs.Crypt.Session
import NetLabs.Crypt.Service
import NetLabs.Crypt.Keys
import NetLabs.Crypt.Blocking
import NetLabs.Crypt.Substitution
import NetLabs.StopWait.Delivery
import NetLabs.StopWait.Files
import NetLabs.StopWait.Closing
import NetLabs.StopWait.Reliable
import NetLabs.StopWait.Bounds
