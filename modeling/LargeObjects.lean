import LargeObjects.Checksum
import LargeObjects.Text.Utf8
import LargeObjects.Numeral
import LargeObjects.Basic
import LargeObjects.Store.Memory
import LargeObjects.Store.Disk
import LargeObjects.Store.Faulty
import LargeObjects.Compression.Frame
import LargeObjects.Compression.Stream
import LargeObjects.Settings
import LargeObjects.ChunkSize
import LargeObjects.Naming.Parse
import LargeObjects.Database
import LargeObjects.Value.Content
import LargeObjects.Source
import LargeObjects.Value.Ownership
import LargeObjects.Removal
import LargeObjects.Inventory
import LargeObjects.CommandLine.Console
import LargeObjects.Main
import LargeObjects.Proofs.Unlinking
import LargeObjects.Proofs.Frames
import LargeObjects.Proofs.Streams
import LargeObjects.Proofs.Names
import LargeObjects.Proofs.Reading
import LargeObjects.Proofs.Exactness
import LargeObjects.Proofs.Handles
import LargeObjects.Proofs.Intakes
import LargeObjects.Proofs.Reattaching
import LargeObjects.Proofs.Fallible
import LargeObjects.Proofs.Effects
import LargeObjects.Proofs.Following
import LargeObjects.Proofs.Mirroring
import LargeObjects.Proofs.Outcomes
import LargeObjects.Proofs.Freshness
import LargeObjects.Proofs.Atomicity
import LargeObjects.Proofs.Deeds
import LargeObjects.Proofs.Digits
import LargeObjects.Proofs.Bounds
import LargeObjects.Proofs.Swept
import LargeObjects.Proofs.Browsing
import LargeObjects.Proofs.Walking
import LargeObjects.Proofs.Sweeping
import LargeObjects.Proofs.Retirement
import LargeObjects.Proofs.Counting
import LargeObjects.Proofs.Overwriting
import LargeObjects.Proofs.FlatNames
import LargeObjects.Proofs.Directories
import LargeObjects.Proofs.DiskLaws
import LargeObjects.Proofs.Finding
import LargeObjects.Proofs.Decoding
import LargeObjects.Proofs.Neighbours
import LargeObjects.Proofs.Companions
import LargeObjects.Proofs.Titles
import LargeObjects.Proofs.Stocktaking
import LargeObjects.Proofs.Interchange
import LargeObjects.Proofs.Places
import LargeObjects.Proofs.Overrunning
import LargeObjects.Proofs.Comparing
import LargeObjects.Proofs.Looking
import LargeObjects.Proofs.Folders
import LargeObjects.Proofs.DiskFolders
import LargeObjects.Proofs.Guarding
import LargeObjects.Proofs.Reserving
import LargeObjects.Proofs.Seeding
import LargeObjects.Proofs.Hashing
import LargeObjects.Proofs.Relinking
import LargeObjects.Proofs.Converting
import LargeObjects.Proofs.Spilling
import LargeObjects.Proofs.Standing
import LargeObjects.Proofs.Splitting
import LargeObjects.Proofs.Roundtrips
import LargeObjects.Proofs.Accounts
import LargeObjects.Proofs.Spellings
import LargeObjects.Proofs.Touring
