import FirmwareStamp.Main
import FirmwareStamp.Proofs.Agreement
import FirmwareStamp.Proofs.Boundary
import FirmwareStamp.Proofs.CheckedWrite
import FirmwareStamp.Proofs.CoveredRun
import FirmwareStamp.Proofs.Failure
import FirmwareStamp.Proofs.HashStream
import FirmwareStamp.Proofs.HeaderErrors
import FirmwareStamp.Proofs.HexLoad
import FirmwareStamp.Proofs.History
import FirmwareStamp.Proofs.MagicText
import FirmwareStamp.Proofs.NoOverflow
import FirmwareStamp.Proofs.OneFile
import FirmwareStamp.Proofs.Order
import FirmwareStamp.Proofs.PlainHash
import FirmwareStamp.Proofs.RawSearch
import FirmwareStamp.Proofs.Report
import FirmwareStamp.Proofs.Rerun
import FirmwareStamp.Proofs.Restamp
import FirmwareStamp.Proofs.SecondPlaceholder
import FirmwareStamp.Proofs.SectionBoundaries
import FirmwareStamp.Proofs.SparseMemory
import FirmwareStamp.Proofs.SymbolSearch
import FirmwareStamp.Proofs.Translation
import FirmwareStamp.Proofs.Verified
import FirmwareStamp.Proofs.WideImages
