import QingStor.Lib.Block
import QingStor.Lib.Retry
import QingStor.Json
import QingStor.HttpParser
import QingStor.Common
import QingStor.DownloadPipeline
import QingStor.Configuration
import QingStor.QingStorReader
import QingStor.QingStorWriter
import QingStor.Context
import QingStor.Api
import QingStor.Lemmas.Requests
import QingStor.Lemmas.Writer
import QingStor.Theorems.ConfigFile
import QingStor.Theorems.UploadRetry
import QingStor.Theorems.Upload
import QingStor.Lemmas.Chunks
import QingStor.Theorems.Status
import QingStor.Theorems.Chunking
import QingStor.Lemmas.Url
import QingStor.Lib.Percent
import QingStor.Theorems.ObjectUrl
import QingStor.Lemmas.Pipeline
import QingStor.Lemmas.Ledger
import QingStor.Theorems.ErrorBodies
import QingStor.Lemmas.Download
import QingStor.Theorems.Download
import QingStor.Lemmas.Listing
import QingStor.Theorems.Listing
import QingStor.Lib.Query
import QingStor.Theorems.ListProgress
import QingStor.FetcherRun
import QingStor.Lemmas.FetcherRun
import QingStor.Theorems.Buffer
import QingStor.Lemmas.Attempt
import QingStor.Theorems.AttemptHeaders
import QingStor.Theorems.Resume
import QingStor.Lemmas.Opened
import QingStor.Theorems.OpenedRange
import QingStor.Theorems.RangeForm
import QingStor.HandleRun
import QingStor.Lemmas.Handle
import QingStor.Theorems.Cancel
import QingStor.Theorems.AllOrNothing
import QingStor.Lemmas.Bookkeeping
import QingStor.Lemmas.Kept
import QingStor.Theorems.Bookkeeping
import QingStor.Lemmas.Raised
import QingStor.Theorems.Errno
import QingStor.Lemmas.Extractors
import QingStor.Theorems.Extractors
import QingStor.Theorems.Release
import QingStor.SendRun
import QingStor.Lemmas.Sends
import QingStor.Theorems.PartLength
import QingStor.Theorems.EmptyPart
import QingStor.Theorems.ChunkEnd
import QingStor.Theorems.Progress
import QingStor.Lemmas.HandleBook
import QingStor.Lemmas.EasyHandles
import QingStor.Theorems.HandleLife
import QingStor.Lemmas.Usable
import QingStor.Theorems.Recovery
import QingStor.Lemmas.Restarts
import QingStor.Theorems.Restarts
import QingStor.JsonText
import QingStor.Lemmas.JsonText
import QingStor.Lemmas.HeadAnswer
import QingStor.Theorems.HeadHeaders
import QingStor.Theorems.QueryEscape
import QingStor.Theorems.Accumulator
import QingStor.ContextInit
import QingStor.Theorems.ContextInit
import QingStor.Theorems.NumericSettings
import QingStor.Lemmas.UrlHost
import QingStor.Theorems.UrlPath
import QingStor.Lemmas.Decimal
import QingStor.Lemmas.Moves
import QingStor.Lemmas.UrlGrammar
import QingStor.Lemmas.HostGrammar
import QingStor.Theorems.UrlGrammar
import QingStor.Lemmas.Wire
import QingStor.Theorems.Signed
import QingStor.Theorems.HeaderLines
import QingStor.Lemmas.Served
import QingStor.Theorems.DownloadFinishes
import QingStor.Lemmas.Relabel
import QingStor.Theorems.Versions
import QingStor.Lemmas.Granted
import QingStor.Theorems.UploadSucceeds
import QingStor.Theorems.Completion
import QingStor.Theorems.ListChanges
import QingStor.Theorems.ReadAhead
import QingStor.Lemmas.Offers
import QingStor.Theorems.Carried
import QingStor.Theorems.RoundTrip
