import Afn.Bytes
import Afn.Access
import Afn.Chunk
import Afn.Run
import Afn.Effect
import Afn.Heap
import Afn.Proto
import Afn.Package
import Afn.ParseSound
import Afn.CodecSound
import Afn.CapacitySound
import Afn.AuxSound
import Afn.RecBuf
import Afn.RecBufSound
import Afn.DecisionSound
import Afn.Mailbox
import Afn.MailboxSound
import Afn.Jzq
import Afn.JzqSound
import Afn.AFN0C
import Afn.AFN0CSound
import Afn.Decimal
import Afn.Rounding
import Afn.ToDB
import Afn.Server
import Afn.ServerSound
import Afn.DispatchSound
import Afn.ReassemblySound
import Afn.OwnershipSound
import Afn.Payload
import Afn.PayloadSound
import Afn.Connections
import Afn.ConnectionsSound
import Afn.MatchSound
import Afn.SequenceSound
import Afn.RecordsSound
import Afn.ToDBSound
import Afn.AckSound
import Afn.RunStatusSound
import Afn.Lines
import Afn.Telnet
import Afn.TelnetSound
import Afn.CString
import Afn.ComFun
import Afn.Query
import Afn.QuerySound
import Afn.LiteralSound
import Afn.IniFile
import Afn.IniSound
import Afn.IniWriteSound
import Afn.Semaphore
import Afn.PrcSync
import Afn.PrcSyncSound
import Afn.LogFileMp
import Afn.LogFileMpSound
import Afn.LinkedList
import Afn.YQList
import Afn.YQListSound
import Afn.DataList
import Afn.DataListSound
import Afn.ItoaSound
import Afn.Loop
import Afn.ListClone
import Afn.ListCloneSound
import Afn.StringScan
import Afn.DateTime
import Afn.DateTimeSound
import Afn.Outcome
import Afn.Polling
import Afn.KeptSound
import Afn.CallsSound
import Afn.PollingSound
import Afn.FaultSound
import Afn.Session
import Afn.SessionSound
import Afn.StreamSound
import Afn.ResyncSound
import Afn.TypedQueue
import Afn.PsMsg
import Afn.PsMsgSound
import Afn.LogFile
import Afn.LogFileSound
import Afn.LogWriters
import Afn.Supervisor
import Afn.SupervisorSound
import Afn.Console
import Afn.ConsoleSound
import Afn.Recordset
import Afn.RecordsetSound
import Afn.Storage
import Afn.UniqueKey
import Afn.StorageSound
