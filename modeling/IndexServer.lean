import IndexServer.Base
import IndexServer.StringFunctions
import IndexServer.Lib.Machine
import IndexServer.Lib.Tally
import IndexServer.Lib.ServiceQueue
import IndexServer.Lib.Bucket
import IndexServer.Lib.Splitting
import IndexServer.Lib.Segments
import IndexServer.Lib.Walk
import IndexServer.Lib.Multimap
import IndexServer.StringFunctions.Split
import IndexServer.StringFunctions.Wide
import IndexServer.Site
import IndexServer.HashTable.Model
import IndexServer.HashTable.Sound
import IndexServer.HashTable.HashRange
import IndexServer.HashTable.Add
import IndexServer.HashTable.Growth
import IndexServer.HashTable.Runs
import IndexServer.HashTable.Lookup
import IndexServer.HashTable.WellFormed
import IndexServer.HashTable.GrowthLookup
import IndexServer.HashTable.Load
import IndexServer.HashTable.Values
import IndexServer.HashTable.Capacity
import IndexServer.HashTable.Count
import IndexServer.HashTable.Contents
import IndexServer.HashTable.Regrowth
import IndexServer.HashTable.Doubling
import IndexServer.SharedTable.Parking
import IndexServer.SharedTable.Model
import IndexServer.SharedTable.Cells
import IndexServer.SharedTable.Adds
import IndexServer.SharedTable.Alone
import IndexServer.SharedTable.Steps
import IndexServer.SharedTable.Gate
import IndexServer.SharedTable.Handshake
import IndexServer.SharedTable.AcceptLoop
import IndexServer.SharedTable.Waiting
import IndexServer.SharedTable.Placement
import IndexServer.SharedTable.WaitFree
import IndexServer.SharedTable.Apart
import IndexServer.SharedTable.Atomic
import IndexServer.SharedTable.Origin
import IndexServer.SharedTable.Sequential
import IndexServer.ThreadPool.Model
import IndexServer.ThreadPool.Steps
import IndexServer.ThreadPool.Order
import IndexServer.ThreadPool.Wakeup
import IndexServer.ThreadPool.Session
import IndexServer.ThreadPool.Shutdown
import IndexServer.ThreadPool.Workers
import IndexServer.ThreadPool.Ending
import IndexServer.ThreadPool.Holding
import IndexServer.ThreadPool.Serving
import IndexServer.InvertedIndex.Service
import IndexServer.InvertedIndex.ServiceOrder
import IndexServer.InvertedIndex.ServiceDrain
import IndexServer.InvertedIndex.ServiceThreads
import IndexServer.InvertedIndex.ServiceEnding
import IndexServer.InvertedIndex.Model
import IndexServer.InvertedIndex.Rules
import IndexServer.InvertedIndex.Ids
import IndexServer.InvertedIndex.Overflow
import IndexServer.InvertedIndex.Concurrent
import IndexServer.InvertedIndex.ConcurrentIds
import IndexServer.Section.Model
import IndexServer.Section.Values
import IndexServer.Section.Chain
import IndexServer.Section.Text
import IndexServer.Section.Saved
import IndexServer.Section.Links
import IndexServer.Section.Records
import IndexServer.Section.ReadBack
import IndexServer.Section.Addresses
import IndexServer.Storage.Model
import IndexServer.Storage.SavedPath
import IndexServer.Storage.UnicName
import IndexServer.Storage.Decrease
import IndexServer.Storage.Folder
import IndexServer.Storage.History
import IndexServer.Storage.Restart
import IndexServer.Storage.Sites
import IndexServer.Storage.Stranded
import IndexServer.Client.Model
import IndexServer.Client.Loops
import IndexServer.Client.Framing
import IndexServer.Client.Segmentation
import IndexServer.Client.RoundTrip
import IndexServer.Client.Failures
import IndexServer.Server.Console
import IndexServer.InvertedIndex.Journal
import IndexServer.InvertedIndex.Progress
import IndexServer.InvertedIndex.Draining
import IndexServer.InvertedIndex.Refusals
import IndexServer.Server.Interact
import IndexServer.Server.Answers
import IndexServer.Server.Requests
