import LibnklabsPico.Sched.Ledger
import LibnklabsPico.File.FileProg
import LibnklabsPico.Foundation.Crc
import LibnklabsPico.Flash.CrcDefinition
import LibnklabsPico.Flash.CheckedFile
import LibnklabsPico.Flash.Matching
import LibnklabsPico.Text.Nkprintf
import LibnklabsPico.Text.Nkscan
import LibnklabsPico.Text.Scanning
import LibnklabsPico.Dbase.Nkserialize
import LibnklabsPico.Text.Printing
import LibnklabsPico.Text.IntegerFormat
import LibnklabsPico.Text.Snprintf
import LibnklabsPico.Dbase.Layout
import LibnklabsPico.Dbase.Scalars
import LibnklabsPico.Dbase.Spacing
import LibnklabsPico.Dbase.Migrated
import LibnklabsPico.Dbase.Loops
import LibnklabsPico.Dbase.Tables
import LibnklabsPico.Dbase.Reading
import LibnklabsPico.Dbase.RoundTrip
import LibnklabsPico.Dbase.Skipping
import LibnklabsPico.Dbase.Migration
import LibnklabsPico.Dbase.Pretty
import LibnklabsPico.Text.Nkstrtod
import LibnklabsPico.Text.Runs
import LibnklabsPico.Text.Quoted
import LibnklabsPico.Text.FormatLanguage
import LibnklabsPico.File.Streams
import LibnklabsPico.File.Stays
import LibnklabsPico.File.Logged
import LibnklabsPico.Text.AnyText
import LibnklabsPico.Dbase.Slots
import LibnklabsPico.Dbase.Bounds
import LibnklabsPico.Dbase.NumberReaders
import LibnklabsPico.Dbase.ColumnMap
import LibnklabsPico.Uart.Console
import LibnklabsPico.File.Peeks
import LibnklabsPico.Ymodem.Packets
import LibnklabsPico.Ymodem.Header
import LibnklabsPico.Ymodem.Bursts
import LibnklabsPico.Ymodem.Sender
import LibnklabsPico.Ymodem.BlockStream
import LibnklabsPico.Readline.Prompt
import LibnklabsPico.Flash.Containment
import LibnklabsPico.Dbase.FailedSave
import LibnklabsPico.Sched.Table
import LibnklabsPico.Sched.ReturnCodes
import LibnklabsPico.Sched.Timing
import LibnklabsPico.Uart.Interrupt
import LibnklabsPico.Flash.NkarchPico
import LibnklabsPico.Serial.I2cPaging
import LibnklabsPico.Serial.CrcCommands
import LibnklabsPico.Serial.EraseReturns
import LibnklabsPico.Date.Inverse
import LibnklabsPico.Date.Overflow
import LibnklabsPico.Shell.Sorting
import LibnklabsPico.Date.Sanity
import LibnklabsPico.Date.RtcCommand
import LibnklabsPico.Serial.I2cCommand
import LibnklabsPico.Text.Tokens
import LibnklabsPico.Dbase.Xpath
import LibnklabsPico.Dbase.NestedArrays
import LibnklabsPico.Readline.Enter
import LibnklabsPico.Readline.Completion
import LibnklabsPico.File.Alike
import LibnklabsPico.Text.Termination
import LibnklabsPico.Dbase.Termination
import LibnklabsPico.Dbase.SaveLoad
import LibnklabsPico.Dbase.SaveContained
import LibnklabsPico.Foundation.Refine
import LibnklabsPico.Flash.PowerLoss
import LibnklabsPico.Dbase.PowerFail
import LibnklabsPico.Dbase.Capacity
import LibnklabsPico.Flash.Mcuflash
import LibnklabsPico.Dbase.Database
import LibnklabsPico.Foundation.Handover
import LibnklabsPico.Ymodem.Delivery
import LibnklabsPico.Ymodem.Link
import LibnklabsPico.Ymodem.Exchange
import LibnklabsPico.Ymodem.FirstHeader
import LibnklabsPico.Ymodem.Transfer
import LibnklabsPico.Flash.DirectFile
import LibnklabsPico.Ymodem.Deployment
